import BlockScript.Proofs.Code.Reading
import BlockScript.Proofs.Machine.Effect

/-!
# Runs and listings

The machine and a listing read words in loops of their own.  The machine stops where a listing goes
on, behind a word that is no operation code, and at every fault; up to there both find the same.  So
a run of words is a run over the lines that a listing of these words has
(`Line.Reads.runFrom_eq`), and it follows them one by one (`Machine.runLines_follows`).

The main statement is `Machine.run_follows_listing`, for all words, whatever they are.
-/

namespace BlockScript

/-- The line of a command that was dispatched. -/
def Dispatch.line (d : Dispatch) : Line := ⟨d.position, .command d.command⟩

/-! ## Runs over lines -/

namespace Machine

/-- Runs lines in order, behind what is already `dispatched`. -/
def runLines (m : Machine) (limit : Nat) (dispatched : Array Dispatch) : List Line → Run
  | [] => ⟨m, none, dispatched⟩
  | l :: ls =>
    match l.content with
    | .unknown w => ⟨m, some ⟨.unknownOpcode w, l.position⟩, dispatched⟩
    | .truncated op => ⟨m, some ⟨.truncated op, l.position⟩, dispatched⟩
    | .command c =>
      let dispatched := dispatched.push ⟨l.position, c, m.stack.size⟩
      match m.step limit c with
      | (m, some fault) => ⟨m, some ⟨fault, l.position⟩, dispatched⟩
      | (m, none) => runLines m limit dispatched ls

theorem runLines_ok {limit p : Nat} {m m' : Machine} {c : Command}
    (h : m.step limit c = (m', none)) (dispatched : Array Dispatch) (ls : List Line) :
    m.runLines limit dispatched (⟨p, .command c⟩ :: ls) =
      m'.runLines limit (dispatched.push ⟨p, c, m.stack.size⟩) ls := by
  simp only [runLines, h]

theorem runLines_fault {limit p : Nat} {m m' : Machine} {c : Command} {fault : Fault}
    (h : m.step limit c = (m', some fault)) (dispatched : Array Dispatch) (ls : List Line) :
    m.runLines limit dispatched (⟨p, .command c⟩ :: ls) =
      ⟨m', some ⟨fault, p⟩, dispatched.push ⟨p, c, m.stack.size⟩⟩ := by
  simp only [runLines, h]

/-- Induction along a run over lines.  It comes to the end, to a line that is no command, to a
command that has a fault, or to one that has none and then to the lines behind it. -/
@[elab_as_elim]
theorem lines_induction (limit : Nat) {motive : Machine → List Line → Prop}
    (nil : ∀ m, motive m [])
    (unknown : ∀ m p w ls, motive m (⟨p, .unknown w⟩ :: ls))
    (truncated : ∀ m p op ls, motive m (⟨p, .truncated op⟩ :: ls))
    (fault : ∀ m p c ls m' fault, m.step limit c = (m', some fault) →
      motive m (⟨p, .command c⟩ :: ls))
    (ok : ∀ m p c ls m', m.step limit c = (m', none) → motive m' ls →
      motive m (⟨p, .command c⟩ :: ls)) (m : Machine) (ls : List Line) : motive m ls := by
  induction ls generalizing m with
  | nil => exact nil m
  | cons l ls ih =>
      obtain ⟨p, content⟩ := l
      cases content with
      | unknown w => exact unknown m p w ls
      | truncated op => exact truncated m p op ls
      | command c =>
          cases hstep : m.step limit c with
          | mk m' error =>
              cases error with
              | none => exact ok m p c ls m' hstep (ih m')
              | some error => exact fault m p c ls m' error hstep

end Machine

/-- To run words is to run the lines that are read from them. -/
theorem Line.Reads.runFrom_eq {p : Nat} {ws : List Int} {ls : List Line} (h : Line.Reads p ws ls)
    (limit : Nat) : ∀ (m : Machine) (dispatched : Array Dispatch),
      m.runFrom limit dispatched p ws = m.runLines limit dispatched ls := by
  induction h with
  | nil =>
      intro m dispatched
      rw [Machine.runFrom, Machine.runLines]
  | unknown hop _ _ =>
      intro m dispatched
      rw [Machine.runFrom, hop, Machine.runLines]
  | truncated hop hread =>
      intro m dispatched
      rw [Machine.runFrom, hop, Machine.runLines]
      dsimp only
      split
      next => rfl
      next hsome =>
        rw [hread] at hsome
        cases hsome
  | @command p w ws rest op c ls hop hread _ ih =>
      intro m dispatched
      rw [Machine.runFrom, hop, Machine.runLines]
      dsimp only
      split
      next hnone =>
        rw [hread] at hnone
        cases hnone
      next hsome =>
        rw [hread] at hsome
        cases hsome
        cases m.step limit c with
        | mk m' fault =>
            cases fault with
            | none => exact ih m' _
            | some fault => rfl

namespace Machine

/-! ## Loading constants -/

/-- Constants with places that the pool can have are loaded, and only the pool changes. -/
theorem load_of_le {constants : List Constant} :
    ∀ {m : Machine}, (∀ c ∈ constants, c.place ≤ maxSlot) →
      ∃ pool, m.load constants = ({ m with pool := pool }, none) := by
  induction constants with
  | nil =>
      intro m _
      exact ⟨m.pool, rfl⟩
  | cons c cs ih =>
      intro m h
      rw [load, if_pos (h c (List.mem_cons_self ..))]
      exact ih fun c' hc' => h c' (List.mem_cons_of_mem c hc')

/-- With its constants loaded, a run is one over the lines of its words. -/
theorem run_of_load {m m' : Machine} {constants : List Constant}
    (h : m.clear.load constants = (m', none)) (limit : Nat) (ws : List Int) :
    m.run limit ws constants = m'.runLines limit #[] (Line.ofWords ws).toList := by
  rw [run, h]
  exact (Line.reads_ofWords ws).runFrom_eq limit m' #[]

/-! ## Following lines -/

/-- The fault of a command is never that of a line that is no command. -/
theorem step_fault {limit : Nat} {m m' : Machine} {c : Command} {fault : Fault}
    (h : m.step limit c = (m', some fault)) :
    (∀ w, fault ≠ .unknownOpcode w) ∧ ∀ op, fault ≠ .truncated op := by
  have heffect := step_effect limit m c
  rw [h] at heffect
  cases heffect with
  | fault _ hblames =>
      constructor
      · rintro w rfl
        cases hblames
      · rintro op rfl
        cases hblames

/-- How a run follows lines.  It dispatches them in order: all of them, those before a line that is
no command, or those up to a command that has a fault. -/
inductive Follows (limit : Nat) (ls : List Line) :
    List Dispatch → Option RunError → Machine → Prop where
  | all {ran : List Dispatch} {m : Machine} : ran.map Dispatch.line = ls →
      Follows limit ls ran none m
  | unknown {ran : List Dispatch} {p : Nat} {w : Int} {rest : List Line} {m : Machine} :
      ls = ran.map Dispatch.line ++ ⟨p, .unknown w⟩ :: rest →
      Follows limit ls ran (some ⟨.unknownOpcode w, p⟩) m
  | truncated {ran : List Dispatch} {p : Nat} {op : Opcode} {rest : List Line} {m : Machine} :
      ls = ran.map Dispatch.line ++ ⟨p, .truncated op⟩ :: rest →
      Follows limit ls ran (some ⟨.truncated op, p⟩) m
  | fault (ran : List Dispatch) {d : Dispatch} {rest : List Line} {m m' : Machine}
      {fault : Fault} : ls = ran.map Dispatch.line ++ d.line :: rest →
      m.step limit d.command = (m', some fault) →
      Follows limit ls (ran ++ [d]) (some ⟨fault, d.position⟩) m'

namespace Follows

variable {limit : Nat} {ls : List Line} {ran : List Dispatch} {error : Option RunError}
  {m : Machine}

/-- A command without a fault, and then the lines behind it. -/
theorem cons (h : Follows limit ls ran error m) (d : Dispatch) :
    Follows limit (d.line :: ls) (d :: ran) error m := by
  cases h with
  | all hran => exact .all (congrArg (d.line :: ·) hran)
  | unknown hls => exact .unknown (congrArg (d.line :: ·) hls)
  | truncated hls => exact .truncated (congrArg (d.line :: ·) hls)
  | fault _ hls hstep => exact .fault (d :: _) (congrArg (d.line :: ·) hls) hstep

/-- What is dispatched are the first lines. -/
theorem lines_prefix (h : Follows limit ls ran error m) : ran.map Dispatch.line <+: ls := by
  cases h with
  | all hran => exact hran ▸ List.prefix_rfl
  | unknown hls => exact ⟨_, hls.symm⟩
  | truncated hls => exact ⟨_, hls.symm⟩
  | @fault _ _ rest _ _ _ hls _ => exact ⟨rest, by simp [hls]⟩

/-- A run without an error goes through all lines. -/
theorem lines_eq (h : Follows limit ls ran none m) : ran.map Dispatch.line = ls := by
  cases h with
  | all hran => exact hran

/-- A run with an error stops at a line, and the line shows the error. -/
theorem exists_line {fault : Fault} {p : Nat} (h : Follows limit ls ran (some ⟨fault, p⟩) m) :
    ∃ l ∈ ls, l.position = p ∧
      (∀ w, l.content = .unknown w ↔ fault = .unknownOpcode w) ∧
      (∀ op, l.content = .truncated op ↔ fault = .truncated op) ∧
      ((∀ w, fault ≠ .unknownOpcode w) → (∀ op, fault ≠ .truncated op) →
        ∃ (d : Dispatch) (m' : Machine), ran.getLast? = some d ∧ d.line = l ∧
          m'.step limit d.command = (m, some fault)) := by
  cases h with
  | @unknown _ _ w _ _ hls =>
      refine ⟨⟨p, .unknown w⟩, by simp [hls], rfl, by simp, by simp, ?_⟩
      intro hne
      exact absurd rfl (hne w)
  | @truncated _ _ op _ _ hls =>
      refine ⟨⟨p, .truncated op⟩, by simp [hls], rfl, by simp, by simp, ?_⟩
      intro _ hne
      exact absurd rfl (hne op)
  | @fault ran d _ m' _ _ hls hstep =>
      obtain ⟨hunknown, htruncated⟩ := step_fault hstep
      refine ⟨d.line, by simp [hls], rfl, ?_, ?_, ?_⟩
      · simp [Dispatch.line, hunknown]
      · simp [Dispatch.line, htruncated]
      · intro _ _
        exact ⟨d, m', by simp, rfl, hstep⟩

end Follows

/-- A run over lines follows them. -/
theorem runLines_follows (limit : Nat) (ls : List Line) :
    ∀ (m : Machine) (dispatched : Array Dispatch), ∃ ran,
      (m.runLines limit dispatched ls).dispatched.toList = dispatched.toList ++ ran ∧
      Follows limit ls ran (m.runLines limit dispatched ls).error
        (m.runLines limit dispatched ls).machine := by
  induction ls with
  | nil =>
      intro m dispatched
      exact ⟨[], (List.append_nil _).symm, .all rfl⟩
  | cons l ls ih =>
      intro m dispatched
      obtain ⟨p, content⟩ := l
      cases content with
      | unknown w => exact ⟨[], (List.append_nil _).symm, .unknown rfl⟩
      | truncated op => exact ⟨[], (List.append_nil _).symm, .truncated rfl⟩
      | command c =>
          cases hstep : m.step limit c with
          | mk m' fault =>
              cases fault with
              | some fault =>
                  rw [runLines_fault hstep]
                  exact ⟨[⟨p, c, m.stack.size⟩], by simp, .fault [] rfl hstep⟩
              | none =>
                  rw [runLines_ok hstep]
                  obtain ⟨ran, hran, hfollows⟩ := ih m' (dispatched.push ⟨p, c, m.stack.size⟩)
                  exact ⟨_, by simpa using hran, hfollows.cons ⟨p, c, m.stack.size⟩⟩

/-- The machine runs what a listing shows.  For all words, it dispatches the first lines of their
listing; all of them and nothing else if it succeeds, and then every line is a command.  If it stops
with an error, the listing has a line at that place.  It is an unknown word exactly if that was the
error, an instruction cut short exactly if that was the error, and otherwise the command that was
dispatched last and had the fault.  The lines stand one behind the other on the words, and up to an
instruction that is cut short every word belongs to exactly one of them. -/
theorem run_follows_listing (m : Machine) (limit : Nat) (ws : List Int)
    {constants : List Constant} (hc : ∀ c ∈ constants, c.place ≤ 65535) {r : Run}
    (hr : m.run limit ws constants = r) {ls : List Line} (hls : (Line.ofWords ws).toList = ls) :
    (∀ pool, listing ws pool = String.join (ls.map fun l => l.text pool ++ "\n")) ∧
    r.dispatched.toList.map Dispatch.line <+: ls ∧
    (r.error = none → r.dispatched.toList.map Dispatch.line = ls ∧
      ∀ l ∈ ls, (∀ w, l.content ≠ .unknown w) ∧ ∀ op, l.content ≠ .truncated op) ∧
    (∀ fault p, r.error = some ⟨fault, p⟩ → ∃ l ∈ ls, l.position = p ∧
      (∀ w, l.content = .unknown w ↔ fault = .unknownOpcode w) ∧
      (∀ op, l.content = .truncated op ↔ fault = .truncated op) ∧
      ((∀ w, fault ≠ .unknownOpcode w) → (∀ op, fault ≠ .truncated op) →
        ∃ (d : Dispatch) (m' : Machine), r.dispatched.back? = some d ∧ d.line = l ∧
          m'.step limit d.command = (r.machine, some fault))) ∧
    ls.Pairwise (fun l l' => l.position < l'.position) ∧
    (∀ l ∈ ls, l.words <+: ws.drop l.position) ∧
    ∀ i < ws.length, (∀ l ∈ ls, ∀ op, l.content = .truncated op → i < l.position) →
      ∃! l, l ∈ ls ∧ l.Covers i := by
  obtain ⟨pool, hload⟩ := load_of_le (m := m.clear) hc
  have hreads : Line.Reads 0 ws ls := hls ▸ Line.reads_ofWords ws
  have hrun : r = runLines _ limit #[] ls := hr.symm.trans (hls ▸ run_of_load hload limit ws)
  obtain ⟨ran, hran, hfollows⟩ := runLines_follows limit ls { m.clear with pool := pool } #[]
  rw [← hrun, Array.toList_empty, List.nil_append] at hran
  rw [← hrun, ← hran] at hfollows
  refine ⟨fun pool => hls ▸ listing_eq_join ws pool, hfollows.lines_prefix, ?_, ?_,
    hreads.positions_lt, ?_, ?_⟩
  · intro hok
    rw [hok] at hfollows
    refine ⟨hfollows.lines_eq, ?_⟩
    intro l hl
    rw [← hfollows.lines_eq] at hl
    obtain ⟨d, -, rfl⟩ := List.mem_map.1 hl
    simp [Dispatch.line]
  · intro fault p herror
    rw [herror] at hfollows
    simpa using hfollows.exists_line
  · intro l hl
    exact (hreads.words_prefix l hl).2
  · intro i hi hcut
    exact hreads.existsUnique (Nat.zero_le i) (by omega) hcut

/-- The machine stops at the word 9999, and the listing goes on to an instruction that is cut
short. -/
theorem run_follows_listing_unknown :
    (∀ c ∈ [(⟨2, .integer 7⟩ : Constant)], c.place ≤ 65535) ∧
    (run {} 8 [14, 5, 36, 2, 9999, 34] [⟨2, .integer 7⟩]).error =
      some ⟨.unknownOpcode 9999, 4⟩ ∧
    ∃ l ∈ (Line.ofWords [14, 5, 36, 2, 9999, 34]).toList,
      l.position = 4 ∧ l.content = .unknown 9999 := by
  have hplaces : ∀ c ∈ [(⟨2, .integer 7⟩ : Constant)], c.place ≤ 65535 := by decide
  have herror : (run {} 8 [14, 5, 36, 2, 9999, 34] [⟨2, .integer 7⟩]).error =
      some ⟨.unknownOpcode 9999, 4⟩ := by cbv
  obtain ⟨-, -, -, hstop, -⟩ := run_follows_listing {} 8 [14, 5, 36, 2, 9999, 34] hplaces rfl rfl
  obtain ⟨l, hl, hp, hunknown, -⟩ := hstop _ _ herror
  exact ⟨hplaces, herror, l, hl, hp, (hunknown 9999).2 rfl⟩

end Machine

end BlockScript
