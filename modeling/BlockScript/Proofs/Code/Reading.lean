import BlockScript.Proofs.Code.Decoding
import Mathlib.Data.List.Pairwise

/-!
# Words as lines

Any list of words can be read as lines, whether or not it is the encoding of code.  `Line.Reads`
says how, rule by rule: a word that is no operation code is a line by itself, a code and the words
that it takes are a line, and a code with too few words behind it is the last line.  The lines of a
listing are read by these rules (`Line.reads_ofWords`).

Two things follow from the rules.  The lines lie side by side: each stands on its own words, and up
to a line that is cut short every word belongs to exactly one of them (`Line.Reads.existsUnique`).
And a place that is reached from the front by passing over complete instructions, a `Boundary`, can
be told from the words alone.
-/

namespace BlockScript

namespace Opcode

/-- A word stands for at most one code, and is the word of that code. -/
theorem word_of_ofWord? {w : Int} {op : Opcode} (h : ofWord? w = some op) : op.word = w := by
  rw [ofWord?] at h
  split at h
  next hw =>
    cases h
    exact Int.toNat_of_nonneg hw.1
  next => cases h

end Opcode

namespace Command

/-- With enough words behind it, a code is read with as many of them as it takes. -/
theorem read?_of_le {op : Opcode} {ws : List Int} (h : op.arity ≤ ws.length) :
    ∃ c : Command, c.opcode = op ∧ c.operands = ws.take op.arity ∧
      read? op ws = some (c, ws.drop op.arity) := by
  obtain ⟨c, hop, hws, hread⟩ := read?_of_length (List.length_take_of_le h)
  refine ⟨c, hop, hws, ?_⟩
  have hall := hread (ws.drop op.arity)
  rwa [List.take_append_drop] at hall

/-- With too few words behind it, a code is not read. -/
theorem read?_of_lt {op : Opcode} {ws : List Int} (h : ws.length < op.arity) :
    read? op ws = none := by
  cases hop : op.operation? with
  | none =>
      rw [Opcode.arity, hop] at h
      exact absurd h (Nat.not_lt_zero _)
  | some o =>
      rw [Opcode.arity, hop] at h
      -- Only codes that take words can have too few, so the other cases are empty.
      cases ws with
      | nil => cases o <;> first | exact absurd h (Nat.not_lt_zero _) | simp only [read?, hop]
      | cons w ws =>
          cases ws with
          | nil =>
              cases o <;> first
                | exact absurd h (Nat.not_lt_zero _)
                | exact absurd h (Nat.lt_irrefl _)
                | simp only [read?, hop]
          | cons w' ws =>
              have harity : o.arity ≤ 2 := by cases o <;> decide
              simp only [List.length_cons, Option.elim_some] at h
              omega

/-- What is read as a command is its code with the words that the code takes. -/
theorem read?_eq_some {op : Opcode} {ws rest : List Int} {c : Command}
    (h : read? op ws = some (c, rest)) :
    c.opcode = op ∧ c.operands.length = op.arity ∧ ws = c.operands ++ rest := by
  by_cases hlen : op.arity ≤ ws.length
  · obtain ⟨c', hop, hws, hread⟩ := read?_of_le hlen
    cases h.symm.trans hread
    refine ⟨hop, ?_, ?_⟩
    · rw [hws, List.length_take_of_le hlen]
    · rw [hws, List.take_append_drop]
  · rw [read?_of_lt (Nat.lt_of_not_le hlen)] at h
    cases h

/-- A command is as wide as its code and the words that the code takes. -/
theorem width_of_read? {op : Opcode} {ws rest : List Int} {c : Command}
    (h : read? op ws = some (c, rest)) : c.width = 1 + op.arity := by
  rw [width, (read?_eq_some h).2.1]

end Command

/-! ## The rules of reading -/

namespace Line

/-- The words at place `p` are read as these lines. -/
inductive Reads : Nat → List Int → List Line → Prop where
  | nil {p : Nat} : Reads p [] []
  | unknown {p : Nat} {w : Int} {ws : List Int} {ls : List Line} :
      Opcode.ofWord? w = none → Reads (p + 1) ws ls →
      Reads p (w :: ws) (⟨p, .unknown w⟩ :: ls)
  | truncated {p : Nat} {w : Int} {ws : List Int} {op : Opcode} :
      Opcode.ofWord? w = some op → Command.read? op ws = none →
      Reads p (w :: ws) [⟨p, .truncated op⟩]
  | command {p : Nat} {w : Int} {ws rest : List Int} {op : Opcode} {c : Command}
      {ls : List Line} :
      Opcode.ofWord? w = some op → Command.read? op ws = some (c, rest) →
      Reads (p + c.width) rest ls → Reads p (w :: ws) (⟨p, .command c⟩ :: ls)

theorem exists_reads (found : Array Line) (p : Nat) (ws : List Int) :
    ∃ ls, (readFrom found p ws).toList = found.toList ++ ls ∧ Reads p ws ls := by
  fun_induction readFrom found p ws with
  | case1 found p => exact ⟨[], (List.append_nil _).symm, .nil⟩
  | case2 found p w ws hop ih =>
      obtain ⟨ls, hls, hreads⟩ := ih
      exact ⟨_, by simpa using hls, .unknown hop hreads⟩
  | case3 found p w ws op hop hread => exact ⟨_, by simp, .truncated hop hread⟩
  | case4 found p w ws op hop c rest hread ih =>
      obtain ⟨ls, hls, hreads⟩ := ih
      exact ⟨_, by simpa using hls, .command hop hread hreads⟩

/-- The lines of a listing are read from its words. -/
theorem reads_ofWords (ws : List Int) : Reads 0 ws (ofWords ws).toList := by
  obtain ⟨ls, hls, hreads⟩ := exists_reads #[] 0 ws
  have hls : (ofWords ws).toList = ls := hls
  rwa [hls]

/-! ## The words of a line -/

/-- The words that a line stands on.  Of an instruction that is cut short it is the first. -/
def words (l : Line) : List Int :=
  match l.content with
  | .command c => c.opcode.word :: c.operands
  | .unknown w => [w]
  | .truncated op => [op.word]

theorem length_words_command (p : Nat) (c : Command) :
    (Line.words ⟨p, .command c⟩).length = c.width := Nat.add_comm _ _

theorem length_words_pos (l : Line) : 0 < l.words.length := by
  obtain ⟨p, content⟩ := l
  cases content with
  | command c => exact Nat.succ_pos _
  | unknown w => exact Nat.one_pos
  | truncated op => exact Nat.one_pos

/-- The place `i` belongs to a line. -/
def Covers (l : Line) (i : Nat) : Prop := l.position ≤ i ∧ i < l.position + l.words.length

/-- One of two lines ends before the other begins. -/
def Apart (l l' : Line) : Prop :=
  l.position + l.words.length ≤ l'.position ∨ l'.position + l'.words.length ≤ l.position

instance : Std.Symm Apart := ⟨fun _ _ => Or.symm⟩

namespace Reads

variable {p : Nat} {ws : List Int} {ls : List Line}

/-- Words and lines proceed together: behind the words of the first line are the lines behind it. -/
theorem words_append {l : Line} (h : Reads p ws (l :: ls)) :
    l.position = p ∧ ∃ rest, ws = l.words ++ rest ∧
      ((∃ op, l.content = .truncated op) ∧ ls = [] ∨ Reads (p + l.words.length) rest ls) := by
  cases h with
  | unknown _ hreads => exact ⟨rfl, _, rfl, Or.inr hreads⟩
  | truncated hop _ =>
      exact ⟨rfl, _, by rw [← Opcode.word_of_ofWord? hop]; rfl, Or.inl ⟨⟨_, rfl⟩, rfl⟩⟩
  | @command _ _ _ rest _ _ _ hop hread hreads =>
      obtain ⟨hopcode, -, hws⟩ := Command.read?_eq_some hread
      refine ⟨rfl, rest, ?_, Or.inr ?_⟩
      · rw [hws, ← Opcode.word_of_ofWord? hop, ← hopcode]
        rfl
      · rw [length_words_command]
        exact hreads

/-- Each line stands on its words. -/
theorem words_prefix (h : Reads p ws ls) :
    ∀ l ∈ ls, p ≤ l.position ∧ l.words <+: ws.drop (l.position - p) := by
  induction ls generalizing p ws with
  | nil =>
      intro l hl
      cases hl
  | cons l₀ ls ih =>
      obtain ⟨hpos, rest, rfl, htail⟩ := h.words_append
      intro l hl
      obtain rfl | hl := List.mem_cons.1 hl
      · rw [hpos, Nat.sub_self]
        exact ⟨Nat.le_refl _, List.prefix_append _ _⟩
      · obtain ⟨-, rfl⟩ | htail := htail
        · cases hl
        · obtain ⟨hle, hpre⟩ := ih htail l hl
          have hskip : l.position - p =
              l₀.words.length + (l.position - (p + l₀.words.length)) := by omega
          refine ⟨by omega, ?_⟩
          rwa [hskip, ← List.drop_drop, List.drop_left]

/-- Each line ends before the next begins. -/
theorem pairwise (h : Reads p ws ls) :
    ls.Pairwise fun l l' => l.position + l.words.length ≤ l'.position := by
  induction ls generalizing p ws with
  | nil => exact .nil
  | cons l₀ ls ih =>
      obtain ⟨hpos, rest, -, ⟨-, rfl⟩ | htail⟩ := h.words_append
      · exact List.pairwise_singleton _ _
      · refine List.pairwise_cons.2 ⟨?_, ih htail⟩
        intro l hl
        rw [hpos]
        exact (htail.words_prefix l hl).1

theorem positions_lt (h : Reads p ws ls) :
    ls.Pairwise fun l l' => l.position < l'.position := by
  refine h.pairwise.imp ?_
  intro l l' hle
  have := l.length_words_pos
  omega

/-- Up to a line that is cut short, every word belongs to a line. -/
theorem exists_covers (h : Reads p ws ls) {i : Nat} (hp : p ≤ i) (hi : i < p + ws.length)
    (hcut : ∀ l ∈ ls, ∀ op, l.content = .truncated op → i < l.position) :
    ∃ l ∈ ls, l.Covers i := by
  induction ls generalizing p ws with
  | nil =>
      cases h
      exact absurd hi (Nat.not_lt.2 hp)
  | cons l₀ ls ih =>
      obtain ⟨hpos, rest, rfl, htail⟩ := h.words_append
      by_cases hlt : i < p + l₀.words.length
      · exact ⟨l₀, List.mem_cons_self .., by omega, by omega⟩
      · obtain ⟨⟨op, hop⟩, -⟩ | htail := htail
        · have := hcut l₀ (List.mem_cons_self ..) op hop
          omega
        · rw [List.length_append] at hi
          obtain ⟨l, hl, hc⟩ := ih htail (by omega) (by omega)
            (fun l hl => hcut l (List.mem_cons_of_mem l₀ hl))
          exact ⟨l, List.mem_cons_of_mem l₀ hl, hc⟩

/-- No word belongs to two lines. -/
theorem eq_of_covers (h : Reads p ws ls) {l l' : Line} {i : Nat} (hl : l ∈ ls) (hl' : l' ∈ ls)
    (hc : l.Covers i) (hc' : l'.Covers i) : l = l' := by
  have hapart : ls.Pairwise Apart := h.pairwise.imp Or.inl
  by_contra hne
  obtain hd | hd := hapart.forall hl hl' hne
  · exact absurd (Nat.lt_of_lt_of_le hc.2 hd) (Nat.not_lt.2 hc'.1)
  · exact absurd (Nat.lt_of_lt_of_le hc'.2 hd) (Nat.not_lt.2 hc.1)

/-- Up to a line that is cut short, every word belongs to exactly one line. -/
theorem existsUnique (h : Reads p ws ls) {i : Nat} (hp : p ≤ i) (hi : i < p + ws.length)
    (hcut : ∀ l ∈ ls, ∀ op, l.content = .truncated op → i < l.position) :
    ∃! l, l ∈ ls ∧ l.Covers i := by
  obtain ⟨l, hl, hc⟩ := h.exists_covers hp hi hcut
  refine ⟨l, ⟨hl, hc⟩, ?_⟩
  rintro l' ⟨hl', hc'⟩
  exact h.eq_of_covers hl' hl hc' hc

end Reads

end Line

/-- A listing shows its lines one below the other. -/
theorem listing_eq_join (ws : List Int) (constants : Array Number) :
    listing ws constants =
      String.join ((Line.ofWords ws).toList.map fun l => l.text constants ++ "\n") := by
  rw [listing, ← Array.foldl_toList, String.join, List.foldl_map]
  simp only [String.append_assoc]

/-! ## Boundaries -/

/-- The places of `ws` that are reached from the front by passing over complete instructions. -/
inductive Boundary (ws : List Int) : Nat → Prop where
  | start : Boundary ws 0
  | next {p : Nat} {w : Int} {op : Opcode} : Boundary ws p → ws[p]? = some w →
      Opcode.ofWord? w = some op → p + 1 + op.arity ≤ ws.length → Boundary ws (p + 1 + op.arity)

theorem Boundary.le_length {ws : List Int} {p : Nat} (h : Boundary ws p) : p ≤ ws.length := by
  cases h with
  | start => exact Nat.zero_le _
  | next _ _ _ hp => exact hp

end BlockScript
