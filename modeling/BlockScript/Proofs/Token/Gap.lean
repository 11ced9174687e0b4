import BlockScript.Proofs.Token.Spelling
import Mathlib.Data.List.Infix

/-!
# Gaps between tokens

Between the tokens of a source stand blanks and comments.  They are described here as texts, apart
from the function that passes over them.  A line comment ends where its line does, so whether a text
is a comment depends on the text behind it; a block comment ends with the first `*/` inside it,
where the star of its `/*` does not count.

`Cursor.skipGap` passes over exactly the gap.  It takes off a gap and stops where no piece of a gap
stands in front (`Cursor.skipGap_spec`), and a text falls apart in this way only once
(`Gap.skipGap`).
-/

namespace BlockScript

/-! ## Pieces -/

/-- The text has no end of a block comment in it. -/
def Unclosed (text : List Char) : Prop := ¬ ['*', '/'] <:+: text

/-- A line ends in front of the text. -/
def EndsLine (text : List Char) : Prop := ∀ c ∈ text.head?, c = '\n' ∨ c = '\r'

/-- A blank or a comment, in front of the text `rest`. -/
inductive GapPiece (rest : List Char) : List Char → Prop where
  | blank {c : Char} : c ∈ [' ', '\t', '\n', '\r'] → GapPiece rest [c]
  | line {body : List Char} : '\n' ∉ body → '\r' ∉ body → EndsLine rest →
      GapPiece rest ('/' :: '/' :: body)
  | comment {body : List Char} : Unclosed body →
      GapPiece rest ('/' :: '*' :: (body ++ ['*', '/']))

/-- Blanks and comments one after the other, in front of the text `rest`. -/
inductive Gap (rest : List Char) : List Char → Prop where
  | nil : Gap rest []
  | cons {piece gap : List Char} : GapPiece (gap ++ rest) piece → Gap rest gap →
      Gap rest (piece ++ gap)

/-- No piece of a gap stands in front of the text. -/
def StopsGap (text : List Char) : Prop :=
  ∀ piece rest, text = piece ++ rest → ¬ GapPiece rest piece

theorem stopsGap_nil : StopsGap [] := by
  intro piece rest hnil hpiece
  rw [eq_comm, List.append_eq_nil_iff] at hnil
  rw [hnil.1] at hpiece
  cases hpiece

theorem unclosed_nil : Unclosed [] := by simp [Unclosed]

theorem unclosed_cons {c : Char} {text : List Char} :
    Unclosed (c :: text) ↔ ¬ (c = '*' ∧ text.head? = some '/') ∧ Unclosed text := by
  rw [Unclosed, List.infix_cons_iff, not_or, Unclosed]
  refine and_congr_left' (not_congr ?_)
  cases text with
  | nil => simp
  | cons d text => simp [List.cons_prefix_cons, eq_comm]

namespace Cursor

theorem isBlank_iff {c : Char} : isBlank c = true ↔ c ∈ [' ', '\t', '\n', '\r'] := by
  simp [isBlank, or_assoc]

end Cursor

namespace Position

@[simp] theorem after_nil (p : Position) : p.after [] = p := rfl

@[simp] theorem after_cons (p : Position) (c : Char) (cs : List Char) :
    p.after (c :: cs) = (p.advance c).after cs := rfl

@[simp] theorem after_append (p : Position) (cs ds : List Char) :
    p.after (cs ++ ds) = (p.after cs).after ds := List.foldl_append

end Position

namespace Cursor

/-! ## Comments -/

theorem skipLine_append {body rest : List Char} (hn : '\n' ∉ body) (hr : '\r' ∉ body)
    (hrest : EndsLine rest) :
    ∀ p : Position, skipLine p (body ++ rest) = ⟨p.after body, rest⟩ := by
  induction body with
  | nil =>
      intro p
      cases rest with
      | nil => rfl
      | cons c rest =>
          have hc : (c == '\n' || c == '\r') = true := by simpa using hrest c rfl
          rw [List.nil_append, skipLine, if_pos hc]
          rfl
  | cons c body ih =>
      intro p
      obtain ⟨hnc, hn⟩ := not_or.1 (mt List.mem_cons.2 hn)
      obtain ⟨hrc, hr⟩ := not_or.1 (mt List.mem_cons.2 hr)
      have hc : ¬ (c == '\n' || c == '\r') = true := by simp [Ne.symm hnc, Ne.symm hrc]
      rw [List.cons_append, skipLine, if_neg hc, ih hn hr]
      rfl

/-- A line falls apart into what stands before its end and the rest. -/
theorem exists_line (text : List Char) : ∃ body rest, text = body ++ rest ∧ '\n' ∉ body ∧
    '\r' ∉ body ∧ EndsLine rest := by
  induction text with
  | nil => exact ⟨[], [], rfl, by simp, by simp, by simp [EndsLine]⟩
  | cons c text ih =>
      by_cases hc : c = '\n' ∨ c = '\r'
      · exact ⟨[], c :: text, rfl, by simp, by simp, by simpa [EndsLine] using hc⟩
      · obtain ⟨body, rest, rfl, hn, hr, hrest⟩ := ih
        obtain ⟨hnc, hrc⟩ := not_or.1 hc
        exact ⟨c :: body, rest, rfl, by simp [Ne.symm hnc, hn], by simp [Ne.symm hrc, hr], hrest⟩

theorem closeComment?_append {body : List Char} (h : Unclosed body) (rest : List Char) :
    ∀ p : Position, closeComment? p (body ++ '*' :: '/' :: rest) =
      some ⟨p.after (body ++ ['*', '/']), rest⟩ := by
  induction body with
  | nil => exact fun p => rfl
  | cons c body ih =>
      intro p
      obtain ⟨hc, hbody⟩ := unclosed_cons.1 h
      rw [List.cons_append, closeComment?, ih hbody]
      · rfl
      · rintro cs rfl hcs
        cases body with
        | nil => cases hcs
        | cons d body =>
            cases hcs
            exact hc ⟨rfl, rfl⟩

theorem closeComment?_eq_none {text : List Char} (h : Unclosed text) :
    ∀ p : Position, closeComment? p text = none := by
  induction text with
  | nil => exact fun p => rfl
  | cons c text ih =>
      intro p
      obtain ⟨hc, htext⟩ := unclosed_cons.1 h
      rw [closeComment?, ih htext]
      rintro cs rfl rfl
      exact hc ⟨rfl, rfl⟩

/-- A text with the end of a comment in it has a first one. -/
theorem exists_comment {text : List Char} (h : ¬ Unclosed text) :
    ∃ body rest, text = body ++ '*' :: '/' :: rest ∧ Unclosed body := by
  induction text with
  | nil => exact absurd unclosed_nil h
  | cons c text ih =>
      by_cases hc : c = '*' ∧ text.head? = some '/'
      · obtain ⟨rfl, hslash⟩ := hc
        obtain ⟨rest, rfl⟩ := List.head?_eq_some_iff.1 hslash
        exact ⟨[], rest, rfl, unclosed_nil⟩
      · have htext : ¬ Unclosed text := fun htext => h (unclosed_cons.2 ⟨hc, htext⟩)
        obtain ⟨body, rest, rfl, hbody⟩ := ih htext
        refine ⟨c :: body, rest, rfl, unclosed_cons.2 ⟨?_, hbody⟩⟩
        rintro ⟨rfl, hslash⟩
        obtain ⟨body, rfl⟩ := List.head?_eq_some_iff.1 hslash
        exact hc ⟨rfl, rfl⟩

/-! ## Passing over a gap -/

theorem skipGap_line (p : Position) (text : List Char) :
    skipGap p ('/' :: '/' :: text) =
      skipGap (skipLine (p.after ['/', '/']) text).position
        (skipLine (p.after ['/', '/']) text).rest := by
  rw [skipGap]
  rfl

theorem skipGap_comment {p : Position} {text : List Char} {k : Cursor}
    (h : closeComment? (p.after ['/', '*']) text = some k) :
    skipGap p ('/' :: '*' :: text) = skipGap k.position k.rest := by
  have h' : closeComment? ((p.advance '/').advance '*') text = some k := h
  rw [skipGap]
  split
  next k' hk' =>
    rw [h'] at hk'
    cases hk'
    rfl
  next hnone =>
    rw [h'] at hnone
    cases hnone

/-- A piece of a gap is passed over. -/
theorem skipGap_piece {piece rest : List Char} (h : GapPiece rest piece) (p : Position) :
    skipGap p (piece ++ rest) = skipGap (p.after piece) rest := by
  cases h with
  | blank hc => exact skipGap_blank (isBlank_iff.2 hc) p rest
  | @line body hn hr hrest =>
      rw [List.cons_append, List.cons_append, skipGap_line, skipLine_append hn hr hrest]
      rfl
  | @comment body hbody =>
      have hclose := closeComment?_append hbody rest (p.after ['/', '*'])
      rw [List.cons_append, List.cons_append, List.append_assoc]
      exact skipGap_comment hclose

/-- Where no piece of a gap stands in front, nothing is passed over. -/
theorem skipGap_stops {text : List Char} (h : StopsGap text) (p : Position) :
    skipGap p text = ⟨p, text⟩ := by
  fun_cases skipGap p text with
  | case1 => rfl
  | case2 text =>
      obtain ⟨body, rest, rfl, hn, hr, hrest⟩ := exists_line text
      exact absurd (.line hn hr hrest) (h ('/' :: '/' :: body) rest rfl)
  | case3 text k hk =>
      have hclosed : ¬ Unclosed text := by
        intro hun
        rw [closeComment?_eq_none hun] at hk
        cases hk
      obtain ⟨body, rest, rfl, hbody⟩ := exists_comment hclosed
      exact absurd (.comment hbody) (h ('/' :: '*' :: (body ++ ['*', '/'])) rest (by simp))
  | case4 => rfl
  | case5 c text _ _ hc => exact absurd (.blank (isBlank_iff.1 hc)) (h [c] text rfl)
  | case6 => rfl

end Cursor

/-- A gap is passed over, and then what more there is to pass over behind it. -/
theorem Gap.skipGap_append {gap rest : List Char} (h : Gap rest gap) :
    ∀ p : Position, Cursor.skipGap p (gap ++ rest) = Cursor.skipGap (p.after gap) rest := by
  induction h with
  | nil => exact fun p => rfl
  | cons hpiece _ ih =>
      intro p
      rw [List.append_assoc, Cursor.skipGap_piece hpiece, ih, Position.after_append]

/-- A gap is passed over, up to where it stops. -/
theorem Gap.skipGap {gap rest : List Char} (h : Gap rest gap) (hrest : StopsGap rest)
    (p : Position) : Cursor.skipGap p (gap ++ rest) = ⟨p.after gap, rest⟩ := by
  rw [h.skipGap_append, Cursor.skipGap_stops hrest]

/-- A comment that is never closed is no gap. -/
theorem Unclosed.stopsGap {body : List Char} (h : Unclosed body) :
    StopsGap ('/' :: '*' :: body) := by
  intro piece rest htext hpiece
  cases hpiece with
  | blank hc =>
      cases htext
      simp at hc
  | line _ _ _ => cases htext
  | @comment inner _ =>
      cases htext
      exact h ⟨inner, rest, by simp⟩

namespace Cursor

/-- What `skipGap` passes over is a gap, and it stops where no piece of a gap stands in front. -/
theorem skipGap_spec (p : Position) (text : List Char) : ∃ gap rest, text = gap ++ rest ∧
    skipGap p text = ⟨p.after gap, rest⟩ ∧ Gap rest gap ∧ StopsGap rest := by
  induction hlen : text.length using Nat.strongRecOn generalizing p text with
  | ind n ih =>
      by_cases hstop : StopsGap text
      · exact ⟨[], text, rfl, skipGap_stops hstop p, .nil, hstop⟩
      · obtain ⟨piece, rest, hsplit⟩ :
            ∃ piece rest, text = piece ++ rest ∧ GapPiece rest piece := by
          by_contra hno
          exact hstop fun piece rest htext hpiece => hno ⟨piece, rest, htext, hpiece⟩
        obtain ⟨rfl, hpiece⟩ := hsplit
        have hpos : 0 < piece.length := by
          cases hpiece with
          | blank _ | line _ _ _ | comment _ => simp
        rw [List.length_append] at hlen
        obtain ⟨gap, rest', rfl, hskip, hgap, hstop'⟩ :=
          ih rest.length (by omega) (p.after piece) rest rfl
        refine ⟨piece ++ gap, rest', (List.append_assoc ..).symm, ?_, .cons hpiece hgap, hstop'⟩
        rw [skipGap_piece hpiece, hskip, Position.after_append]

/-- Between a place and where `skipGap` comes to there is a gap. -/
theorem exists_gap {p start : Position} {text rest : List Char}
    (h : skipGap p text = ⟨start, rest⟩) : ∃ gap, text = gap ++ rest ∧ start = p.after gap ∧
      Gap rest gap ∧ StopsGap rest := by
  obtain ⟨gap, rest', htext, hskip, hgap, hstop⟩ := skipGap_spec p text
  cases h.symm.trans hskip
  exact ⟨gap, htext, rfl, hgap, hstop⟩

end Cursor

end BlockScript
