import BlockScript.Proofs.Code.Reading
import Mathlib.Algebra.GroupWithZero.Nat

/-!
# Encoding is faithful

The words of code do not say where an instruction ends, and an operand may be any number, that of an
operation code as well.  Still nothing is lost: from the front each code says how many words it
takes.  `Code.decode?` reads words in this way, with no use of commands or lines, and gives back the
codes and operand words of all instructions (`Code.decode?_encode`).

A listing shows each instruction on a line of its own, at the place where its words begin
(`Line.getElem?_ofInstructions`).  No line of a listing without constants has a line feed in it
(`Line.newline_not_mem_text`), so the lines can be told from the text.

The main statement, `Code.encode_faithful`, puts these together.
-/

namespace BlockScript

/-! ## Decoding -/

/-- The operation code of an instruction and the words of its operands. -/
def Instruction.plain (i : Instruction) : Opcode × List Int :=
  (i.opcode, i.operands.map Operand.word)

namespace Code

/-- Reads words from the front: the word of an operation code, and then as many words as the code
takes.  Fails at a word that is no code and where words are missing. -/
def decode? : List Int → Option (List (Opcode × List Int))
  | [] => some []
  | w :: ws =>
    match Opcode.ofWord? w with
    | none => none
    | some op =>
      if op.arity ≤ ws.length then
        (decode? (ws.drop op.arity)).map ((op, ws.take op.arity) :: ·)
      else none
termination_by ws => ws.length
decreasing_by
  rw [List.length_drop, List.length_cons]
  omega

theorem decode?_words {i : Instruction} (h : i.isComplete) (ws : List Int) :
    decode? (i.words ++ ws) = (decode? ws).map (i.plain :: ·) := by
  have hlen := Instruction.length_operands h
  have hle : i.opcode.arity ≤ (i.operands.map Operand.word ++ ws).length := by
    rw [List.length_append, hlen]
    exact Nat.le_add_right _ _
  rw [Instruction.words, List.cons_append, decode?, Opcode.ofWord?_word]
  dsimp only
  rw [if_pos hle, List.take_left' hlen, List.drop_left' hlen]
  rfl

/-- Decoding undoes encoding. -/
theorem decode?_encode {code : Code} (h : ∀ i ∈ code.toList, i.isComplete) :
    decode? code.encode = some (code.toList.map Instruction.plain) := by
  rw [encode]
  generalize code.toList = is at h ⊢
  induction is with
  | nil => rw [List.flatMap_nil, decode?, List.map_nil]
  | cons i is ih =>
      obtain ⟨hi, his⟩ := List.forall_mem_cons.1 h
      rw [List.flatMap_cons, decode?_words hi, ih his]
      rfl

/-! ## Places -/

/-- The place among the words at which instruction `k` begins. -/
def place (code : Code) (k : Nat) : Nat := ((code.toList.take k).map Instruction.width).sum

theorem length_flatMap_words (is : List Instruction) :
    (is.flatMap Instruction.words).length = (is.map Instruction.width).sum := by
  rw [List.length_flatMap]
  simp only [Instruction.length_words]

theorem length_encode (code : Code) :
    code.encode.length = (code.toList.map Instruction.width).sum := length_flatMap_words _

theorem width_eq_sum (code : Code) : code.width = (code.toList.map Instruction.width).sum := by
  rw [width, ← Array.foldl_toList, List.sum_eq_foldl, List.foldl_map]

end Code

theorem Line.getElem?_ofInstructions (p : Nat) (is : List Instruction) (k : Nat) :
    (Line.ofInstructions p is)[k]? = is[k]?.map fun i =>
      ⟨p + ((is.take k).map Instruction.width).sum, .command i.command⟩ := by
  induction is generalizing p k with
  | nil => rfl
  | cons i is ih =>
      cases k with
      | zero => rfl
      | succ k =>
          rw [Line.ofInstructions, List.getElem?_cons_succ, ih, List.getElem?_cons_succ,
            List.take_succ_cons, List.map_cons, List.sum_cons, Nat.add_assoc]

theorem Line.length_ofInstructions (p : Nat) (is : List Instruction) :
    (Line.ofInstructions p is).length = is.length := by
  induction is generalizing p with
  | nil => rfl
  | cons i is ih => rw [ofInstructions, List.length_cons, ih, List.length_cons]

/-! ## Characters of a listing -/

/-- A character is not in a text that lacks one of its bytes. -/
theorem Text.not_mem_of_bytes {c : Char} {b : UInt8} (hb : b ∈ String.utf8EncodeChar c) {s : String}
    (h : ∀ b' ∈ s.toByteArray.data.toList, b' ≠ b) : c ∉ s.toList := by
  intro hc
  rw [← String.utf8Encode_toList, List.utf8Encode, List.toList_data_toByteArray] at h
  have hbyte : b ∈ s.toList.flatMap String.utf8EncodeChar := List.mem_flatMap.2 ⟨c, hc, hb⟩
  exact h b hbyte rfl

theorem Text.isDigit_of_mem_toDigits (n : Nat) : ∀ c ∈ Nat.toDigits 10 n, isDigit c :=
  fun _ hc => Nat.isDigit_of_mem_toDigits (by decide) (by decide) hc

/-- The text of a word has digits, and a minus sign if the word is negative. -/
theorem Text.isDigit_of_mem_toString (w : Int) :
    ∀ c ∈ (toString w).toList, isDigit c ∨ c = '-' := by
  intro c hc
  have hrepr : toString w = w.repr := rfl
  rw [hrepr, Int.repr_eq_if] at hc
  split at hc
  next =>
    rw [Nat.toList_repr] at hc
    exact Or.inl (isDigit_of_mem_toDigits _ c hc)
  next =>
    rw [String.toList_append, List.mem_append, Nat.toList_repr] at hc
    obtain hc | hc := hc
    · exact Or.inr (List.mem_singleton.1 hc)
    · exact Or.inl (isDigit_of_mem_toDigits _ c hc)

namespace Line

theorem newline_not_mem_toString (w : Int) : '\n' ∉ (toString w).toList := by
  intro h
  obtain hd | hd := Text.isDigit_of_mem_toString w _ h
  · cases hd
  · cases hd

/-- No name of a code has a line feed, a blank or an angle bracket in it. -/
theorem not_mem_name (op : Opcode) : ∀ c ∈ ['\n', ' ', '<'], c ∉ op.name.toList := by
  -- the bytes of a name are read from its literal faster than its characters
  have h : Opcode.names.toList.all fun s =>
      s.toByteArray.data.toList.all fun b => b != 10 && b != 32 && b != 60 := by decide +kernel
  have hmem : op.name ∈ Opcode.names.toList := Vector.mem_toList_iff.2 (Vector.getElem_mem _)
  have hbytes : ∀ b ∈ op.name.toByteArray.data.toList, b ≠ 10 ∧ b ≠ 32 ∧ b ≠ 60 := by
    intro b hb
    simpa [and_assoc] using List.all_eq_true.1 (List.all_eq_true.1 h op.name hmem) b hb
  intro c hc
  simp only [List.mem_cons, List.not_mem_nil, or_false] at hc
  obtain rfl | rfl | rfl := hc
  · exact Text.not_mem_of_bytes (b := 10) (by decide) (fun b hb => (hbytes b hb).1)
  · exact Text.not_mem_of_bytes (b := 32) (by decide) (fun b hb => (hbytes b hb).2.1)
  · exact Text.not_mem_of_bytes (b := 60) (by decide) (fun b hb => (hbytes b hb).2.2)

theorem newline_not_mem_name (op : Opcode) : '\n' ∉ op.name.toList :=
  not_mem_name op '\n' (by simp)

theorem newline_not_mem_textOf (op : Opcode) (ws : List Int) :
    '\n' ∉ (Instruction.textOf op ws).toList := by
  have hfold : ∀ s : String, '\n' ∉ s.toList →
      '\n' ∉ (ws.foldl (fun s w => s ++ s!" {w}") s).toList := by
    induction ws with
    | nil => exact fun s hs => hs
    | cons w ws ih =>
        intro s hs
        refine ih _ ?_
        have hw : '\n' ∉ w.repr.toList := newline_not_mem_toString w
        simp [hs, hw, ToString.toString]
  exact hfold op.name (newline_not_mem_name op)

theorem newline_not_mem_padded (w n : Nat) : '\n' ∉ (Text.padded w n).toList := by
  rw [Text.padded, String.toList_ofList, List.mem_append, not_or]
  constructor
  · intro h
    cases List.eq_of_mem_replicate h
  · intro h
    cases Text.isDigit_of_mem_toDigits n _ h

/-- Without constants a command is shown as its code and its operand words. -/
theorem text_command (c : Command) :
    Content.text #[] (.command c) = Instruction.textOf c.opcode c.operands := by
  cases c with
  | loadConstant w =>
      have hnone : constant? #[] w = none := by
        rw [constant?]
        split
        next => rfl
        next => rfl
      simp only [Content.text, hnone]
  | _ => rfl

/-- A line of a listing without constants is one line. -/
theorem newline_not_mem_text (l : Line) : '\n' ∉ (l.text #[]).toList := by
  obtain ⟨p, content⟩ := l
  have hp : '\n' ∉ (Text.padded 4 p).toList := newline_not_mem_padded 4 p
  have hcontent : '\n' ∉ (content.text #[]).toList := by
    cases content with
    | unknown w =>
        have hw : '\n' ∉ w.repr.toList := newline_not_mem_toString w
        simp [Content.text, hw, ToString.toString]
    | truncated op =>
        simp [Content.text, newline_not_mem_name, ToString.toString]
    | command c =>
        rw [text_command]
        exact newline_not_mem_textOf _ _
  simp [text, hp, hcontent, ToString.toString]

end Line

/-! ## Code -/

namespace Code

/-- The lines that a listing of encoded instructions has. -/
theorem getElem?_lines {code : Code} (h : ∀ i ∈ code.toList, i.isComplete) {k : Nat}
    {i : Instruction} (hi : code[k]? = some i) :
    ((Line.ofWords code.encode).toList.map (Line.text #[]))[k]? =
      some (Text.padded 4 (code.place k) ++ "  " ++ i.text) := by
  rw [← Array.getElem?_toList] at hi
  obtain ⟨hop, hws⟩ := Instruction.command_spec (h i (List.mem_of_getElem? hi))
  rw [Line.ofWords_encode h, List.getElem?_map, List.toList_toArray, Line.getElem?_ofInstructions,
    hi, Nat.zero_add]
  simp only [Option.map_some, Line.text, Line.text_command, hop, hws, place, Instruction.text,
    ToString.toString]

/-- Encoding loses nothing of instructions that have as many operands as their codes take.  Their
words are decoded as the same codes with the same operand words, up to the last word, so other
instructions with the same words have the same codes and operand words.  There are as many words as
the instructions are wide.  A listing of the words has one line for each instruction: the place of
its first word in at least four digits, two blanks, and the text of the instruction. -/
theorem encode_faithful {code : Code} (h : ∀ i ∈ code.toList, i.isComplete) :
    decode? code.encode = some (code.toList.map Instruction.plain) ∧
    (∀ code' : Code, (∀ i ∈ code'.toList, i.isComplete) → code'.encode = code.encode →
      code'.toList.map Instruction.plain = code.toList.map Instruction.plain) ∧
    code.encode.length = (code.toList.map Instruction.width).sum ∧
    code.encode.length = code.width ∧
    ∃ lines : List String, listing code.encode #[] = String.join (lines.map (· ++ "\n")) ∧
      (∀ line ∈ lines, '\n' ∉ line.toList) ∧ lines.length = code.size ∧
      ∀ k i, code[k]? = some i →
        lines[k]? = some (Text.padded 4 (code.place k) ++ "  " ++ i.text) := by
  refine ⟨decode?_encode h, ?_, length_encode code, (length_encode code).trans
    (width_eq_sum code).symm, (Line.ofWords code.encode).toList.map (Line.text #[]), ?_, ?_, ?_, ?_⟩
  · intro code' h' hwords
    have hdecode := decode?_encode h'
    rw [hwords, decode?_encode h] at hdecode
    exact (Option.some.inj hdecode).symm
  · rw [listing_eq_join, List.map_map]
    rfl
  · intro line hline
    obtain ⟨l, -, rfl⟩ := List.mem_map.1 hline
    exact l.newline_not_mem_text
  · rw [List.length_map, Line.ofWords_encode h, List.toList_toArray, Line.length_ofInstructions,
      Array.length_toList]
  · exact fun k i hi => getElem?_lines h hi

/-- Code whose operands are numbers of operation codes. -/
def ambiguous : Code :=
  #[Operation.loadInteger.on [.immediate 14], Operation.loadOuterSlot.on [.slot 28, .depth 1],
    Operation.leave.on []]

/-- Operands that are numbers of operation codes are decoded as operands. -/
theorem encode_faithful_ambiguous :
    (∀ i ∈ ambiguous.toList, i.isComplete) ∧ ambiguous.encode = [14, 14, 21, 28, 1, 28] ∧
    decode? ambiguous.encode =
      some [(Operation.loadInteger.opcode, [14]), (Operation.loadOuterSlot.opcode, [28, 1]),
        (Operation.leave.opcode, [])] := by
  have h : ∀ i ∈ ambiguous.toList, i.isComplete := by decide
  obtain ⟨hdecode, -⟩ := encode_faithful h
  exact ⟨h, rfl, hdecode⟩

end Code

end BlockScript
