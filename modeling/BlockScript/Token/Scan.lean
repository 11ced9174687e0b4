import BlockScript.Text.Name
import BlockScript.Token.Numeral

/-!
# Scanning

Scanning alternates two steps.  `Cursor.skipGap` passes over blanks and comments, and `lexeme` takes
one token off what follows.  A comment that is never closed is not passed over: the gap ends in
front of it, and `lexeme` makes it an invalid token that reaches to the end of the source.

`lexeme_length_lt` says that each token takes at least one character, so scanning ends.
-/

namespace BlockScript

/-- A place in a source together with the text behind it. -/
structure Cursor where
  /-- The place. -/
  position : Position
  /-- The text behind it. -/
  rest : List Char

namespace Cursor

/-- Whether `c` is one of the blanks between tokens. -/
def isBlank (c : Char) : Bool := c == ' ' || c == '\t' || c == '\n' || c == '\r'

/-- Passes over the rest of a line, up to its line feed or carriage return. -/
def skipLine (p : Position) : List Char → Cursor
  | [] => ⟨p, []⟩
  | c :: cs => if c == '\n' || c == '\r' then ⟨p, c :: cs⟩ else skipLine (p.advance c) cs

/-- Passes over the inside of a block comment and the `*/` that closes it. -/
def closeComment? (p : Position) : List Char → Option Cursor
  | [] => none
  | '*' :: '/' :: cs => some ⟨(p.advance '*').advance '/', cs⟩
  | c :: cs => closeComment? (p.advance c) cs

theorem skipLine_length_le (p : Position) (cs : List Char) :
    (skipLine p cs).rest.length ≤ cs.length := by
  induction cs generalizing p with
  | nil => simp [skipLine]
  | cons c cs ih =>
    unfold skipLine
    split
    · exact Nat.le_refl _
    · exact Nat.le_succ_of_le (ih _)

theorem closeComment?_length_lt {p : Position} {cs : List Char} {k : Cursor}
    (h : closeComment? p cs = some k) : k.rest.length < cs.length := by
  fun_induction closeComment? p cs with
  | case1 => simp at h
  | case2 p cs =>
    obtain rfl := Option.some.inj h
    simp only [List.length_cons]
    omega
  | case3 p c cs _ ih => exact Nat.lt_succ_of_lt (ih h)

/--
Passes over blanks and comments from the place `p` on.  It stops in front of a block comment that is
never closed.
-/
def skipGap (p : Position) : List Char → Cursor
  | [] => ⟨p, []⟩
  | '/' :: '/' :: cs =>
    let k := skipLine ((p.advance '/').advance '/') cs
    skipGap k.position k.rest
  | '/' :: '*' :: cs =>
    match _h : closeComment? ((p.advance '/').advance '*') cs with
    | some k => skipGap k.position k.rest
    | none => ⟨p, '/' :: '*' :: cs⟩
  | c :: cs => if isBlank c then skipGap (p.advance c) cs else ⟨p, c :: cs⟩
termination_by cs => cs.length
decreasing_by
  · have := skipLine_length_le ((p.advance '/').advance '/') cs
    simp only [List.length_cons]
    omega
  · have := closeComment?_length_lt ‹_›
    simp only [List.length_cons]
    omega
  · simp

theorem skipGap_length_le (p : Position) (cs : List Char) :
    (skipGap p cs).rest.length ≤ cs.length := by
  fun_induction skipGap p cs with
  | case1 => exact Nat.le_refl _
  | case2 p cs k ih =>
    have : k.rest.length ≤ cs.length := skipLine_length_le _ cs
    simp only [List.length_cons]
    omega
  | case3 p cs k h ih =>
    have := closeComment?_length_lt h
    simp only [List.length_cons]
    omega
  | case4 => exact Nat.le_refl _
  | case5 p c cs _ _ _ ih => exact Nat.le_succ_of_le ih
  | case6 => exact Nat.le_refl _

end Cursor

/-- A token without its place, and the text behind it. -/
structure Lexeme where
  /-- What the token is. -/
  kind : Token.Kind
  /-- Its text. -/
  text : List Char
  /-- The text behind it. -/
  rest : List Char

/-- The kinds that are one fixed character. -/
def Token.Kind.ofSymbol? : Char → Option Token.Kind
  | '\x7b' => some .leftBrace
  | '\x7d' => some .rightBrace
  | '(' => some .leftParen
  | ')' => some .rightParen
  | ';' => some .semicolon
  | '+' => some .plus
  | '-' => some .minus
  | '*' => some .star
  | '/' => some .slash
  | '=' => some .equal
  | _ => none

/-- The kind of a name: a keyword or an identifier. -/
def Token.Kind.ofName (name : List Char) : Token.Kind :=
  if name = ['v', 'a', 'r'] then .var else .identifier (String.ofList name)

/-- Takes one token off a text that starts with `c`. -/
def lexeme (c : Char) (cs : List Char) : Lexeme :=
  match c, cs with
  | '/', '*' :: _ => ⟨.invalid, c :: cs, []⟩
  | '=', '=' :: r => ⟨.equalEqual, ['=', '='], r⟩
  | '!', '=' :: r => ⟨.notEqual, ['!', '='], r⟩
  | _, _ =>
    match Token.Kind.ofSymbol? c with
    | some k => ⟨k, [c], cs⟩
    | none =>
      if Text.isDigit c then
        let n := Numeral.split (c :: cs)
        ⟨n.1.kind, n.1.text, n.2⟩
      else if Text.isNameStart c then
        let name := c :: cs.takeWhile Text.isNamePart
        ⟨.ofName name, name, cs.dropWhile Text.isNamePart⟩
      else ⟨.invalid, [c], cs⟩

/-- A token takes at least one character. -/
theorem lexeme_length_lt (c : Char) (cs : List Char) :
    (lexeme c cs).rest.length < (c :: cs).length := by
  unfold lexeme
  split
  · simp
  · simp only [List.length_cons]; omega
  · simp only [List.length_cons]; omega
  · split
    · simp
    · split
      · rename_i hd
        exact Numeral.split_length_lt cs (by simp [Numeral.inRun, hd])
      · split
        · exact Nat.lt_succ_of_le (Numeral.dropWhile_length_le _ _)
        · simp

/-- The tokens of a text at `p`, behind those already `found`, the last found first. -/
def Tokens.scan (found : List Token) (p : Position) (text : List Char) : Tokens :=
  match _h : Cursor.skipGap p text with
  | ⟨start, []⟩ => ⟨found.reverse, ⟨.eof, [], start, start⟩⟩
  | ⟨start, c :: cs⟩ =>
    let l := lexeme c cs
    let stop := start.after l.text
    Tokens.scan (⟨l.kind, l.text, start, stop⟩ :: found) stop l.rest
termination_by text.length
decreasing_by
  have h₁ := Cursor.skipGap_length_le p text
  have h₂ := lexeme_length_lt c cs
  rw [_h] at h₁
  exact Nat.lt_of_lt_of_le h₂ h₁

/-- The tokens of a source. -/
def Tokens.ofSource (source : String) : Tokens :=
  Tokens.scan [] Position.start source.toList

/-- All tokens of a source, the one at the end included. -/
def Tokens.toList (ts : Tokens) : List Token := ts.items ++ [ts.finish]

end BlockScript
