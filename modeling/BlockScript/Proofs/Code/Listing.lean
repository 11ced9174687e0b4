import BlockScript.Proofs.Code.Encoding
import Std.Data.String.ToInt

/-!
# Listings can be read back

A listing without constants loses nothing of its words.  The lines of a listing end with line feeds,
and no line has one in it; the parts of a line stand between blanks, and no part has one in it; and
the parts are the name of an operation code, which is no other code's, and texts of integers.  So
two lists of words with the same listing are equal (`listing_inj`), unless one of them ends in an
instruction that is cut short: that line shows the code, but not the words behind it.
-/

namespace BlockScript

/-! ## Text in parts -/

/-- Two texts are told apart from what is behind them by a sign that neither has. -/
theorem eq_of_append_stop_eq {α : Type} {stop : α} {a b r r' : List α} (ha : stop ∉ a)
    (hb : stop ∉ b) (h : a ++ stop :: r = b ++ stop :: r') : a = b ∧ r = r' := by
  rw [List.append_eq_append_iff] at h
  obtain ⟨m, rfl, hm⟩ | ⟨m, rfl, hm⟩ := h
  · cases m with
    | nil => simpa using hm
    | cons x m =>
        cases hm
        exact absurd (List.mem_append_right a List.mem_cons_self) hb
  · cases m with
    | nil => simpa using hm.symm
    | cons x m =>
        cases hm
        exact absurd (List.mem_append_right b List.mem_cons_self) ha

/-- Parts that do not have the sign that ends them are told apart. -/
theorem eq_of_flatMap_stop_eq {α : Type} {stop : α} {ls ls' : List (List α)}
    (h : ∀ l ∈ ls, stop ∉ l) (h' : ∀ l ∈ ls', stop ∉ l)
    (he : ls.flatMap (· ++ [stop]) = ls'.flatMap (· ++ [stop])) : ls = ls' := by
  induction ls generalizing ls' with
  | nil =>
      cases ls' with
      | nil => rfl
      | cons l' ls' => simp at he
  | cons l ls ih =>
      cases ls' with
      | nil => simp at he
      | cons l' ls' =>
          obtain ⟨hl, hls⟩ := List.forall_mem_cons.1 h
          obtain ⟨hl', hls'⟩ := List.forall_mem_cons.1 h'
          simp only [List.flatMap_cons, List.append_assoc, List.singleton_append] at he
          obtain ⟨rfl, hrest⟩ := eq_of_append_stop_eq hl hl' he
          rw [ih hls hls' hrest]

/-! ## Instructions -/

namespace Opcode

/-- Different codes have different names. -/
theorem name_injective : Function.Injective name := by
  -- the names as numbers, byte by byte, are compared faster than the names
  let number (s : String) : Nat := s.toByteArray.data.toList.foldl (fun n b => 256 * n + b.toNat) 0
  have hnodup : (names.toList.map number).Nodup := by decide +kernel
  intro op op' h
  obtain ⟨⟨i, hi⟩⟩ := op
  obtain ⟨⟨i', hi'⟩⟩ := op'
  have hget : ∀ (i : Nat) (hi : i < count),
      (names.toList.map number)[i]? = some (number (name ⟨⟨i, hi⟩⟩)) := by
    intro i hi
    have hname : name ⟨⟨i, hi⟩⟩ = names[i] := rfl
    simp [hname, hi]
  have hplace := (List.getElem?_inj (by simpa using hi) hnodup).1
    ((hget i hi).trans ((congrArg (some ∘ number) h).trans (hget i' hi').symm))
  cases hplace
  rfl

end Opcode

namespace Instruction

/-- The text of a code with operand words is its parts, with blanks between them. -/
theorem textOf_toList (op : Opcode) (ws : List Int) :
    (textOf op ws).toList ++ [' '] =
      (op.name.toList :: ws.map fun w => (toString w).toList).flatMap (· ++ [' ']) := by
  have hfold : ∀ s : String, (ws.foldl (fun s w => s ++ s!" {w}") s).toList ++ [' '] =
      s.toList ++ ' ' :: (ws.map fun w => (toString w).toList).flatMap (· ++ [' ']) := by
    induction ws with
    | nil => intro s; simp
    | cons w ws ih =>
        intro s
        rw [List.foldl_cons, ih]
        simp [ToString.toString]
  rw [textOf, hfold, List.flatMap_cons]
  simp

theorem blank_not_mem_toString (w : Int) : ' ' ∉ (toString w).toList := by
  intro h
  obtain hd | hd := Text.isDigit_of_mem_toString w _ h
  · cases hd
  · cases hd

/-- Codes and operand words can be read from their text. -/
theorem textOf_inj {op op' : Opcode} {ws ws' : List Int} (h : textOf op ws = textOf op' ws') :
    op = op' ∧ ws = ws' := by
  have hplain : ∀ (op : Opcode) (ws : List Int),
      ∀ l ∈ op.name.toList :: ws.map fun w => (toString w).toList, ' ' ∉ l := by
    intro op ws l hl
    obtain rfl | hl := List.mem_cons.1 hl
    · exact Line.not_mem_name op ' ' (by simp)
    · obtain ⟨w, -, rfl⟩ := List.mem_map.1 hl
      exact blank_not_mem_toString w
  have hparts := eq_of_flatMap_stop_eq (hplain op ws) (hplain op' ws')
    (by rw [← textOf_toList, ← textOf_toList, h])
  obtain ⟨hname, hws⟩ := List.cons.inj hparts
  refine ⟨Opcode.name_injective (String.toList_inj.1 hname), ?_⟩
  refine List.map_injective_iff.2 ?_ hws
  intro w w' hw
  exact Int.repr_injective (String.toList_inj.1 hw)

/-- The text of a code with operand words has no angle bracket in it. -/
theorem bracket_not_mem_textOf (op : Opcode) (ws : List Int) : '<' ∉ (textOf op ws).toList := by
  intro h
  have hmem : '<' ∈ (textOf op ws).toList ++ [' '] := List.mem_append_left _ h
  rw [textOf_toList] at hmem
  obtain ⟨l, hl, hmem⟩ := List.mem_flatMap.1 hmem
  obtain hmem | hmem := List.mem_append.1 hmem
  · obtain rfl | hl := List.mem_cons.1 hl
    · exact Line.not_mem_name op '<' (by simp) hmem
    · obtain ⟨w, -, rfl⟩ := List.mem_map.1 hl
      obtain hd | hd := Text.isDigit_of_mem_toString w _ hmem
      · cases hd
      · cases hd
  · cases List.mem_singleton.1 hmem

end Instruction

/-! ## Lines -/

namespace Line

/-- Lines at one place that look alike stand on the same words, if neither is cut short. -/
theorem words_eq_of_text_eq {p : Nat} {content content' : Content}
    (h : ∀ op, content ≠ .truncated op) (h' : ∀ op, content' ≠ .truncated op)
    (he : text #[] ⟨p, content⟩ = text #[] ⟨p, content'⟩) :
    words ⟨p, content⟩ = words ⟨p, content'⟩ := by
  have hcontent : content.text #[] = content'.text #[] := by
    simpa [text, ToString.toString] using he
  have hunknown : ∀ (w : Int) (c : Command),
      Content.text #[] (.unknown w) ≠ Content.text #[] (.command c) := by
    intro w c hw
    refine Instruction.bracket_not_mem_textOf c.opcode c.operands ?_
    rw [← text_command, ← hw]
    simp [Content.text, ToString.toString]
  cases content with
  | truncated op => exact absurd rfl (h op)
  | unknown w =>
      cases content' with
      | truncated op => exact absurd rfl (h' op)
      | command c => exact absurd hcontent (hunknown w c)
      | unknown w' =>
          have hw : w = w' := Int.repr_injective (by
            simpa [Content.text, ToString.toString] using hcontent)
          rw [words, words, hw]
  | command c =>
      cases content' with
      | truncated op => exact absurd rfl (h' op)
      | unknown w => exact absurd hcontent.symm (hunknown w c)
      | command c' =>
          rw [text_command, text_command] at hcontent
          obtain ⟨hop, hws⟩ := Instruction.textOf_inj hcontent
          exact congrArg₂ (fun op ws => Opcode.word op :: ws) hop hws

/-- Words whose lines look alike are the same, if no line is cut short. -/
theorem Reads.words_eq {p : Nat} {ws ws' : List Int} {ls ls' : List Line} (hr : Reads p ws ls)
    (hr' : Reads p ws' ls') (h : ∀ l ∈ ls, ∀ op, l.content ≠ .truncated op)
    (h' : ∀ l ∈ ls', ∀ op, l.content ≠ .truncated op)
    (he : ls.map (text #[]) = ls'.map (text #[])) : ws = ws' := by
  induction ls generalizing p ws ws' ls' with
  | nil =>
      obtain rfl := List.map_eq_nil_iff.1 he.symm
      cases hr
      cases hr'
      rfl
  | cons l ls ih =>
      cases ls' with
      | nil => cases he
      | cons l' ls' =>
          obtain ⟨hline, hrest⟩ := List.cons.inj he
          obtain ⟨hl, hls⟩ := List.forall_mem_cons.1 h
          obtain ⟨hl', hls'⟩ := List.forall_mem_cons.1 h'
          obtain ⟨hp, rest, rfl, hend⟩ := hr.words_append
          obtain ⟨hp', rest', rfl, hend'⟩ := hr'.words_append
          obtain ⟨q, content⟩ := l
          obtain ⟨q', content'⟩ := l'
          cases hp
          cases hp'
          have hwords := words_eq_of_text_eq hl hl' hline
          obtain ⟨⟨op, hop⟩, -⟩ | hend := hend
          · exact absurd hop (hl op)
          obtain ⟨⟨op, hop⟩, -⟩ | hend' := hend'
          · exact absurd hop (hl' op)
          rw [← hwords] at hend'
          rw [hwords, ih hend hend' hls hls' hrest]

end Line

/-- Words can be read from their listing, unless an instruction is cut short at the end of them. -/
theorem listing_inj {ws ws' : List Int}
    (h : ∀ l ∈ (Line.ofWords ws).toList, ∀ op, l.content ≠ .truncated op)
    (h' : ∀ l ∈ (Line.ofWords ws').toList, ∀ op, l.content ≠ .truncated op)
    (he : listing ws #[] = listing ws' #[]) : ws = ws' := by
  have hchars : ∀ ws : List Int, (listing ws #[]).toList =
      ((Line.ofWords ws).toList.map fun l => (l.text #[]).toList).flatMap (· ++ ['\n']) := by
    intro ws
    rw [listing_eq_join, String.toList_join]
    simp [List.flatMap_map]
  have hplain : ∀ ws : List Int,
      ∀ l ∈ (Line.ofWords ws).toList.map fun l => (l.text #[]).toList, '\n' ∉ l := by
    intro ws l hl
    obtain ⟨l, -, rfl⟩ := List.mem_map.1 hl
    exact l.newline_not_mem_text
  have hlines := eq_of_flatMap_stop_eq (hplain ws) (hplain ws') (by rw [← hchars, ← hchars, he])
  refine (Line.reads_ofWords ws).words_eq (Line.reads_ofWords ws') h h' ?_
  have hinj : Function.Injective (List.map String.toList) :=
    List.map_injective_iff.2 fun _ _ => String.toList_inj.1
  refine hinj ?_
  rw [List.map_map, List.map_map]
  exact hlines

end BlockScript
