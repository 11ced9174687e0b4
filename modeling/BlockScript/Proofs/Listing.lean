import BlockScript.Proofs.Code.Listing
import BlockScript.Proofs.Machine.Invariant
import BlockScript.Proofs.Sharing

/-!
# What listings show

The words of a listing without constants can be read from it.  The listing of a compiled program
shows its constants too, each behind the code that loads it.  A listing looks a constant up in the
list of constants, and the machine in its pool; that both find the same rests on the pool being
loaded as it is (`Compilation.load_of_le`) and on code that names only places of the pool
(`Program.line_of_compile`).

The main statement is `listing_faithful`.
-/

namespace BlockScript

/-- The pool stays as it was loaded. -/
theorem Machine.Reaches.pool_eq {limit : Nat} {ws : List Int} {m m' : Machine} {p : Nat}
    (h : Reaches limit ws m p m') : m'.pool = m.pool := by
  induction h with
  | start => rfl
  | @next _ _ _ c _ m₁ _ _ _ _ _ hstep ih =>
      have hpool := pool_step limit m₁ c
      rw [hstep] at hpool
      exact hpool.trans ih

/-- A constant of the pool is shown behind the code that loads it. -/
theorem Line.text_loadConstant {constants : Array Number} {place : Nat} {value : Number}
    (h : constants[place]? = some value) (p : Nat) :
    Line.text constants ⟨p, .command (.loadConstant place)⟩ =
      Line.text #[] ⟨p, .command (.loadConstant place)⟩ ++ " ; " ++ value.describe := by
  have hconstant : Line.constant? constants place = some value := by
    rw [Line.constant?, if_pos (Int.natCast_nonneg _), Int.toNat_natCast, h]
  have hcontent : Line.Content.text constants (.command (.loadConstant place)) =
      Line.Content.text #[] (.command (.loadConstant place)) ++ " ; " ++ value.describe := by
    rw [Line.text_command]
    simp only [Line.Content.text, hconstant]
    rfl
  simp [Line.text, hcontent, String.append_assoc, ToString.toString]

/-- The lines of a compiled program are commands, and those that load a constant name a place of the
pool. -/
theorem Program.line_of_compile {p : Program} {s : Settings} {c : Compilation}
    (h : p.compile s = .ok c) {l : Line} (hl : l ∈ (Line.ofWords c.words).toList) :
    ∃ cmd, l.content = .command cmd ∧ (cmd.opcode = Operation.loadConstant.opcode →
      ∃ (place : Nat) (value : Number), cmd = .loadConstant place ∧
        c.scopes.pool[place]? = some value) := by
  have hcomplete := (lowers_of_compile h).1.isComplete
  obtain ⟨error, herror, -⟩ | ⟨c₁, c₂, hc₁, hc₂, hagrees⟩ := p.compile_agrees s s
  · cases h.symm.trans herror
  cases h.symm.trans hc₁
  cases h.symm.trans hc₂
  rw [Compilation.words, Line.ofWords_encode hcomplete] at hl
  obtain ⟨k, hk⟩ := List.getElem?_of_mem hl
  rw [List.toList_toArray, Line.getElem?_ofInstructions] at hk
  obtain ⟨i, hi, rfl⟩ := Option.map_eq_some_iff.1 hk
  have himem := List.mem_of_getElem? hi
  refine ⟨i.command, rfl, ?_⟩
  intro hop
  rw [(Instruction.command_spec (hcomplete i himem)).1] at hop
  cases List.forall₂_same.1 hagrees i himem with
  | same hne => exact absurd hop hne
  | @constant place _ value hplace _ => exact ⟨place, value, rfl, hplace⟩

/--
A listing without constants belongs to one list of words only, of those that do not end in an
instruction that is cut short.  The listing of a compiled program whose pool the machine can hold
has a command on each line, and where that is the load of a constant, the line goes on to show a
constant.  It is the one that the machine pushes there, in all its runs of the code.
-/
theorem listing_faithful :
    (∀ ws ws' : List Int,
      (∀ l ∈ (Line.ofWords ws).toList, ∀ op, l.content ≠ .truncated op) →
      (∀ l ∈ (Line.ofWords ws').toList, ∀ op, l.content ≠ .truncated op) →
      listing ws #[] = listing ws' #[] → ws = ws') ∧
    ∀ (p : Program) (s : Settings) (c : Compilation), p.compile s = .ok c →
      c.scopes.constants.size ≤ 65536 →
      c.listing = String.join ((Line.ofWords c.words).toList.map fun l =>
        l.text c.scopes.constants ++ "\n") ∧
      ∀ l ∈ (Line.ofWords c.words).toList, ∃ cmd, l.content = .command cmd ∧
        (cmd.opcode = Operation.loadConstant.opcode → ∃ value : Number,
          l.text c.scopes.constants = l.text #[] ++ " ; " ++ value.describe ∧
          ∀ (m : Machine) (limit : Nat), ∃ m₀, m.clear.load c.constants = (m₀, none) ∧
            ∀ m', m₀.Reaches limit c.words l.position m' →
              m'.step limit cmd = m'.push limit (.number value)) := by
  refine ⟨fun ws ws' => listing_inj, ?_⟩
  intro p s c hc hsize
  refine ⟨listing_eq_join c.words c.scopes.constants, ?_⟩
  rintro ⟨position, content⟩ hl
  obtain ⟨cmd, rfl, hload⟩ := Program.line_of_compile hc hl
  refine ⟨cmd, rfl, ?_⟩
  intro hop
  obtain ⟨place, value, rfl, hplace⟩ := hload hop
  refine ⟨value, Line.text_loadConstant (by simpa [Scopes.pool] using hplace) position, ?_⟩
  intro m limit
  refine ⟨_, Compilation.load_of_le hsize m, ?_⟩
  intro m' hreach
  have hstart : (Machine.holding c.scopes.pool).Holds c.scopes.pool := rfl
  have hholds := hstart.of_pool_eq hreach.pool_eq
  exact Machine.step_constant limit hholds hplace

/-- Another operand is another listing, also behind a word that is no code; and the third load of a
program that shares constants shows the one that it shares. -/
theorem listing_faithful_shared :
    listing [9999, 14, 5] #[] ≠ listing [9999, 14, 6] #[] ∧
    ∃ c, Program.zeros.compile { dedupeConstants := true } = .ok c ∧
      c.scopes.constants.size ≤ 65536 ∧ c.words = [20, 0, 36, 0, 20, 1, 36, 1, 20, 0, 36, 2] ∧
      ∃ value : Number,
        Line.text c.scopes.constants ⟨8, .command (.loadConstant 0)⟩ =
          Line.text #[] ⟨8, .command (.loadConstant 0)⟩ ++ " ; " ++ value.describe ∧
        ∃ m₀, ({} : Machine).clear.load c.constants = (m₀, none) ∧
          ∀ m', m₀.Reaches 1 c.words 8 m' →
            m'.step 1 (.loadConstant 0) = m'.push 1 (.number value) := by
  obtain ⟨hinj, hshown⟩ := listing_faithful
  constructor
  · intro he
    have hlines : ∀ n : Int, (Line.ofWords [9999, 14, n]).toList =
        [⟨0, .unknown 9999⟩, ⟨1, .command (.loadInteger n)⟩] := by
      intro n
      cbv
    have hcut : ∀ n : Int, ∀ l ∈ (Line.ofWords [9999, 14, n]).toList, ∀ op,
        l.content ≠ .truncated op := by
      intro n
      rw [hlines]
      simp
    cases hinj _ _ (hcut 5) (hcut 6) he
  · obtain ⟨c, hc, hcode, hpool⟩ := Program.compile_of_lowers (p := .zeros)
      (s := { dedupeConstants := true }) (.declaration (.constant rfl)
        (.declaration (.constant rfl) (.declaration (.constant rfl) .nil)))
    have hsize : c.scopes.constants.size ≤ 65536 := by
      rw [Compilation.size_constants, hpool]
      decide
    have hwords : c.words = [20, 0, 36, 0, 20, 1, 36, 1, 20, 0, 36, 2] := by
      rw [Compilation.words, hcode]
      rfl
    obtain ⟨-, hlines⟩ := hshown _ _ c hc hsize
    have hline : (⟨8, .command (.loadConstant 0)⟩ : Line) ∈ (Line.ofWords c.words).toList := by
      have hat : (Line.ofWords c.words).toList[4]? = some ⟨8, .command (.loadConstant 0)⟩ := by
        rw [hwords]
        cbv
      exact List.mem_of_getElem? hat
    obtain ⟨cmd, hcmd, hload⟩ := hlines _ hline
    cases hcmd
    obtain ⟨value, htext, hrun⟩ := hload rfl
    exact ⟨c, hc, hsize, hwords, value, htext, hrun {} 1⟩

end BlockScript
