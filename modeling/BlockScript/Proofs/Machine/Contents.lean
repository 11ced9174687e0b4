import BlockScript.Proofs.Machine.Stopping
import BlockScript.Proofs.Machine.Stores
import Mathlib.Data.List.Forall2
import Mathlib.Data.List.TakeWhile

/-!
# What a machine holds

The global variables, the frames and the pool of a machine are what the stores of a run make of
them.  A machine that shows the stores of the commands completed so far (`Machine.Shows`) does so
after one command more (`Machine.Shows.step`), and a command that fails does not touch its slots.
So it does at the end of every run.

The main statement is `Machine.run_slots`, for all words and constants.  It also says that the
completed commands are those which the run dispatched and which had no fault, and that each ran on
the machine that the words before it leave.
-/

namespace BlockScript

/-! ## Machines that show stores -/

/-- Frames that hold their stores do so behind a further command, unless it stores into one of
them. -/
theorem frames_concat {past : List Completion} {d : Completion} {frames : List Slots}
    {ns : List Nat} (h : List.Forall₂ (fun f n => f.Holds (frameStores past n)) frames ns)
    (hd : ∀ n ∈ ns, (openFrames past).head? = some n → d.frameStore? = none) :
    List.Forall₂ (fun f n => f.Holds (frameStores (past ++ [d]) n)) frames ns := by
  induction h with
  | nil => exact .nil
  | @cons f n frames ns hf _ ih =>
      refine .cons ?_ (ih fun n' hn' => hd n' (List.mem_cons_of_mem n hn'))
      rw [frameStores_concat]
      split
      next hhead =>
        rw [hd n (List.mem_cons_self ..) hhead, Option.toList_none, List.append_nil]
        exact hf
      next =>
        rw [List.append_nil]
        exact hf

namespace Machine

/-- The machine shows the stores of the commands that were completed, with `pooled` stored into the
pool. -/
structure Shows (pooled : List Store) (past : List Completion) (m : Machine) : Prop where
  /-- The global variables hold the stores into global slots. -/
  globals : m.globals.Holds (globalStores past)
  /-- Every frame holds the stores into it. -/
  frames : List.Forall₂ (fun f n => f.Holds (frameStores past n)) m.frames (openFrames past)
  /-- The pool holds its own stores. -/
  pool : m.pool.Holds pooled

namespace Shows

variable {pooled : List Store} {past : List Completion} {m : Machine}

/-- Operands may come and go. -/
theorem withStack (h : m.Shows pooled past) (stack : Array Value) :
    (m.withStack stack).Shows pooled past where
  globals := h.globals
  frames := h.frames
  pool := h.pool

/-- A command that is no store into a global slot. -/
theorem globals_concat (h : m.Shows pooled past) {d : Completion} (hd : d.globalStore? = none) :
    m.globals.Holds (globalStores (past ++ [d])) := by
  rw [globalStores_concat, hd, Option.toList_none, List.append_nil]
  exact h.globals

/-- A command that stores nothing and neither enters nor leaves a frame. -/
theorem idle (h : m.Shows pooled past) {d : Completion} (hglobal : d.globalStore? = none)
    (hframe : d.frameStore? = none) (hopen : ∀ n frames, d.command.reframe n frames = frames) :
    m.Shows pooled (past ++ [d]) where
  globals := h.globals_concat hglobal
  frames := by
    rw [openFrames_concat, hopen]
    exact frames_concat h.frames fun _ _ _ => hframe
  pool := h.pool

/-- A frame that is entered is empty, and nothing was stored into it. -/
theorem enter (h : m.Shows pooled past) {d : Completion} (hd : d.command = .enter) :
    Shows pooled (past ++ [d]) { m with frames := ∅ :: m.frames } where
  globals := h.globals_concat (by simp [Completion.globalStore?, hd])
  frames := by
    have hnone : d.frameStore? = none := by simp [Completion.frameStore?, hd]
    rw [openFrames_concat, hd]
    refine .cons ?_ (frames_concat h.frames fun _ _ _ => hnone)
    rw [frameStores_concat, frameStores_eq_nil (Nat.le_refl _), hnone]
    simpa using Slots.Holds.empty
  pool := h.pool

/-- The frames behind one that is left are as they were. -/
theorem leave (h : m.Shows pooled past) {d : Completion} (hd : d.command = .leave) {f : Slots}
    {frames : List Slots} (hframes : m.frames = f :: frames) :
    Shows pooled (past ++ [d]) { m with frames := frames } where
  globals := h.globals_concat (by simp [Completion.globalStore?, hd])
  frames := by
    have hnone : d.frameStore? = none := by simp [Completion.frameStore?, hd]
    have hall := h.frames
    rw [hframes] at hall
    obtain ⟨n, ns, -, hrest, hopen⟩ := List.forall₂_cons_left_iff.1 hall
    rw [openFrames_concat, hd, hopen]
    exact frames_concat hrest fun _ _ _ => hnone
  pool := h.pool

/-- A store into a global slot is the last so far. -/
theorem storeGlobal (h : m.Shows pooled past) {d : Completion} {w : Int} {i : Nat} {v : Value}
    (hd : d.command = .storeGlobal w) (hstore : d.store? w = some ⟨i, v⟩) :
    Shows pooled (past ++ [d]) { m with globals := m.globals.store i v } where
  globals := by
    have hsome : d.globalStore? = some ⟨i, v⟩ := by simp [Completion.globalStore?, hd, hstore]
    rw [globalStores_concat, hsome]
    exact h.globals.store i v
  frames := by
    rw [openFrames_concat, hd]
    exact frames_concat h.frames fun _ _ _ => by simp [Completion.frameStore?, hd]
  pool := h.pool

/-- A store into the innermost frame is the last one into that frame so far, and no other frame
shows it. -/
theorem storeSlot (h : m.Shows pooled past) {d : Completion} {w : Int} {i : Nat} {v : Value}
    (hd : d.command = .storeSlot w) (hstore : d.store? w = some ⟨i, v⟩) {f : Slots}
    {frames : List Slots} (hframes : m.frames = f :: frames) :
    Shows pooled (past ++ [d]) { m with frames := f.store i v :: frames } where
  globals := h.globals_concat (by simp [Completion.globalStore?, hd])
  frames := by
    have hsome : d.frameStore? = some ⟨i, v⟩ := by simp [Completion.frameStore?, hd, hstore]
    have hall := h.frames
    have hpairwise := pairwise_openFrames past
    rw [hframes] at hall
    obtain ⟨n, ns, hf, hrest, hopen⟩ := List.forall₂_cons_left_iff.1 hall
    rw [hopen] at hpairwise
    rw [openFrames_concat, hd, hopen]
    refine .cons ?_ (frames_concat hrest fun n' hn' hhead => ?_)
    · rw [frameStores_concat, hopen, List.head?_cons, if_pos rfl, hsome]
      exact hf.store i v
    · -- a frame further out has another number, so it is not the innermost one
      rw [hopen, List.head?_cons] at hhead
      cases hhead
      exact absurd ((List.pairwise_cons.1 hpairwise).1 n hn') (Nat.lt_irrefl n)
  pool := h.pool

/-- A command that is completed adds its store, if it is one, and keeps the agreement. -/
theorem step (h : m.Shows pooled past) {limit : Nat} {c : Command} {m' : Machine}
    (hstep : m.step limit c = (m', none)) (p : Nat) :
    m'.Shows pooled (past ++ [⟨p, c, m⟩]) := by
  have heffect := step_effect limit m c
  rw [hstep] at heffect
  cases heffect with
  | loadInteger | loadConstant | loadOuterSlot | loadSlot | loadGlobal | arithmetic =>
      exact (h.idle rfl rfl fun _ _ => rfl).withStack _
  | enter => exact h.enter rfl
  | leave hframes => exact h.leave rfl hframes
  | storeGlobal hslot hstack =>
      exact (h.storeGlobal rfl (Completion.store?_eq hslot hstack)).withStack _
  | storeSlot hslot hstack hframes =>
      exact (h.storeSlot rfl (Completion.store?_eq hslot hstack) hframes).withStack _

/-- Constants are stored into the pool, up to the first whose place is too large. -/
theorem load (constants : List Constant) : ∀ {pooled : List Store} {m : Machine},
    m.Shows pooled past → (m.load constants).1.Shows
      (pooled ++ (constants.takeWhile fun c => c.place ≤ maxSlot).map Constant.store) past := by
  induction constants with
  | nil =>
      intro pooled m h
      rw [List.takeWhile_nil, List.map_nil, List.append_nil]
      exact h
  | cons c cs ih =>
      intro pooled m h
      rw [Machine.load]
      split
      next hplace =>
        have hstore : Shows (pooled ++ [c.store]) past
            { m with pool := m.pool.store c.place (.number c.value) } :=
          { h with pool := h.pool.store c.place (.number c.value) }
        simpa [hplace] using ih hstore
      next hplace => simpa [hplace] using h

end Shows

/-! ## Runs over lines -/

/-- The commands that a run over lines completes, in order. -/
def completedOn (limit : Nat) (m : Machine) : List Line → List Completion
  | [] => []
  | l :: ls =>
    match l.content with
    | .command c =>
      match m.step limit c with
      | (m', none) => ⟨l.position, c, m⟩ :: completedOn limit m' ls
      | (_, some _) => []
    | _ => []

theorem completedOn_ok {limit p : Nat} {m m' : Machine} {c : Command}
    (h : m.step limit c = (m', none)) (ls : List Line) :
    m.completedOn limit (⟨p, .command c⟩ :: ls) = ⟨p, c, m⟩ :: m'.completedOn limit ls := by
  simp only [completedOn, h]

theorem completedOn_fault {limit p : Nat} {m m' : Machine} {c : Command} {fault : Fault}
    (h : m.step limit c = (m', some fault)) (ls : List Line) :
    m.completedOn limit (⟨p, .command c⟩ :: ls) = [] := by
  simp only [completedOn, h]

/-- At the end of a run the machine shows the stores of the commands that were completed. -/
theorem Shows.runLines {pooled : List Store} {past : List Completion} {m : Machine}
    (h : m.Shows pooled past) (limit : Nat) (dispatched : Array Dispatch) (ls : List Line) :
    (m.runLines limit dispatched ls).machine.Shows pooled (past ++ m.completedOn limit ls) := by
  induction m, ls using lines_induction limit generalizing past dispatched with
  | nil m =>
      rw [completedOn, List.append_nil]
      exact h
  | unknown m p w ls =>
      rw [completedOn, List.append_nil]
      exact h
  | truncated m p op ls =>
      rw [completedOn, List.append_nil]
      exact h
  | fault m p c ls m' fault hstep =>
      obtain ⟨stack, -, rfl⟩ := (Stops.command hstep).keeps
      rw [runLines_fault hstep, completedOn_fault hstep, List.append_nil]
      exact h.withStack stack
  | ok m p c ls m' hstep ih =>
      rw [runLines_ok hstep, completedOn_ok hstep, List.append_cons]
      exact ih (h.step hstep p) _

/-- A completed command stands on a line, ran on the machine that the lines before leave, and had no
fault. -/
theorem exists_front {limit : Nat} {m : Machine} {ls : List Line} {d : Completion}
    (hd : d ∈ m.completedOn limit ls) (dispatched : Array Dispatch) :
    ∃ front rest m', ls = front ++ ⟨d.position, .command d.command⟩ :: rest ∧
      (m.runLines limit dispatched front).machine = d.before ∧
      d.before.step limit d.command = (m', none) := by
  induction m, ls using lines_induction limit generalizing dispatched with
  | nil m => cases hd
  | unknown m p w ls => cases hd
  | truncated m p op ls => cases hd
  | fault m p c ls m' fault hstep =>
      rw [completedOn_fault hstep] at hd
      cases hd
  | ok m p c ls m₁ hstep ih =>
      rw [completedOn_ok hstep] at hd
      obtain rfl | hd := List.mem_cons.1 hd
      · exact ⟨[], ls, m₁, rfl, rfl, hstep⟩
      · obtain ⟨front, rest, m', rfl, hbefore, hok⟩ :=
          ih hd (dispatched.push ⟨p, c, m.stack.size⟩)
        refine ⟨⟨p, .command c⟩ :: front, rest, m', rfl, ?_, hok⟩
        rw [runLines_ok hstep]
        exact hbefore

/-- Of the commands that a run over lines dispatches, it completes all but one at the place of its
error. -/
theorem exists_dispatched {limit : Nat} {m : Machine} {ls : List Line}
    (hls : ls.Pairwise fun l l' => l.position < l'.position) (dispatched : Array Dispatch) :
    ∃ ran, (m.runLines limit dispatched ls).dispatched.toList = dispatched.toList ++ ran ∧
      (m.completedOn limit ls).map Completion.dispatch = ran.filter fun d =>
        (m.runLines limit dispatched ls).error.all fun e => e.position ≠ d.position := by
  induction m, ls using lines_induction limit generalizing dispatched with
  | nil m => exact ⟨[], (List.append_nil _).symm, rfl⟩
  | unknown m p w ls => exact ⟨[], (List.append_nil _).symm, rfl⟩
  | truncated m p op ls => exact ⟨[], (List.append_nil _).symm, rfl⟩
  | fault m p c ls m' fault hstep =>
      rw [runLines_fault hstep, completedOn_fault hstep]
      exact ⟨[⟨p, c, m.stack.size⟩], by simp, by simp⟩
  | ok m p c ls m' hstep ih =>
      obtain ⟨hfirst, htail⟩ := List.pairwise_cons.1 hls
      obtain ⟨ran, hran, hmap⟩ := ih htail (dispatched.push ⟨p, c, m.stack.size⟩)
      rw [runLines_ok hstep, completedOn_ok hstep]
      refine ⟨⟨p, c, m.stack.size⟩ :: ran, by simpa using hran, ?_⟩
      rw [List.map_cons, hmap, List.filter_cons_of_pos]
      · rfl
      -- the error, if there is one, is at a line further on
      cases he : (m'.runLines limit _ ls).error with
      | none => rfl
      | some e =>
          obtain ⟨front, l, rest, hsplit, hp, -⟩ := exists_stop limit _ _ _ he
          have hlt : p < l.position := hfirst l (by simp [hsplit])
          simp only [Option.all_some, decide_eq_true_eq]
          omega

/-! ## Runs -/

/-- The commands that a run completes, in order; none if the constants cannot be loaded. -/
def completed (m : Machine) (limit : Nat) (ws : List Int) (constants : List Constant) :
    List Completion :=
  match m.clear.load constants with
  | (m₀, none) => m₀.completedOn limit (Line.ofWords ws).toList
  | (_, some _) => []

/-- The machine shows the stores of the commands that a run completed, and the constants up to the
first whose place is too large. -/
theorem run_shows (m : Machine) (limit : Nat) (ws : List Int) (constants : List Constant) :
    (m.run limit ws constants).machine.Shows
      ((constants.takeWhile fun c => c.place ≤ maxSlot).map Constant.store)
      (m.completed limit ws constants) := by
  have hclear : m.clear.Shows [] [] := ⟨.empty, .nil, .empty⟩
  have hloaded := hclear.load constants
  rw [run, completed]
  cases hload : m.clear.load constants with
  | mk m₀ fault =>
      rw [hload] at hloaded
      cases fault with
      | none =>
          dsimp only
          rw [(Line.reads_ofWords ws).runFrom_eq]
          exact hloaded.runLines limit #[] _
      | some fault => exact hloaded

/-- A completed command ran on the machine that the words before it leave. -/
theorem run_before {m : Machine} {limit : Nat} {ws : List Int} {constants : List Constant}
    {d : Completion} (hd : d ∈ m.completed limit ws constants) :
    (m.run limit (ws.take d.position) constants).machine = d.before ∧
      ∃ m', d.before.step limit d.command = (m', none) := by
  rw [completed] at hd
  cases hload : m.clear.load constants with
  | mk m₀ fault =>
      rw [hload] at hd
      cases fault with
      | some fault => cases hd
      | none =>
          obtain ⟨front, rest, m', hls, hbefore, hok⟩ := exists_front hd #[]
          have hreads := Line.reads_ofWords ws
          rw [hls] at hreads
          have hrun : m.run limit (ws.take d.position) constants =
              m₀.runLines limit #[] front := by
            rw [run, hload]
            exact hreads.take.runFrom_eq limit m₀ #[]
          rw [hrun]
          exact ⟨hbefore, m', hok⟩

/-- The completed commands are those dispatched without the one that failed. -/
theorem map_completed (m : Machine) (limit : Nat) (ws : List Int) (constants : List Constant) :
    (m.completed limit ws constants).map Completion.dispatch =
      (m.run limit ws constants).dispatched.toList.filter fun d =>
        (m.run limit ws constants).error.all fun e => e.position ≠ d.position := by
  cases hload : m.clear.load constants with
  | mk m₀ fault =>
      cases fault with
      | some fault => simp [completed, run, hload]
      | none =>
          rw [run_of_load hload, completed, hload]
          obtain ⟨ran, hran, hmap⟩ :=
            @exists_dispatched limit m₀ _ (Line.reads_ofWords ws).positions_lt #[]
          rw [hran]
          exact hmap

/-- Lists of slots are maps in which the last store counts.  After any run, also one that fails, the
global variables hold what the completed stores into global slots have put there, and every frame
what was stored into it while it was the innermost one.  The stores are exactly those among the
commands that were dispatched and did not fail, each of the operand on top of the stack that the
words before it leave.  A frame shows only what was stored after it had been entered, so nothing of
a frame that was left before.  The pool holds the constants in the same way, if it has a place for
each. -/
theorem run_slots (m : Machine) (limit : Nat) (ws : List Int) (constants : List Constant)
    {r : Run} (hr : m.run limit ws constants = r) {past : List Completion}
    (hpast : m.completed limit ws constants = past) :
    past.map Completion.dispatch =
      (r.dispatched.toList.filter fun d => r.error.all fun e => e.position ≠ d.position) ∧
    (∀ d ∈ past, d.before = (m.run limit (ws.take d.position) constants).machine ∧
      ∀ w, d.command = .storeGlobal w ∨ d.command = .storeSlot w →
        ∃ s, d.store? w = some s ∧ (s.slot : Int) = w) ∧
    r.machine.globals.Holds (globalStores past) ∧
    List.Forall₂ (fun f n => f.Holds (frameStores past n)) r.machine.frames (openFrames past) ∧
    (∀ n ∈ openFrames past, (∃ d, past[n]? = some d ∧ d.command = .enter) ∧
      ∀ s ∈ frameStores past n, ∃ k d, n < k ∧ past[k]? = some d ∧
        (openFrames (past.take k)).head? = some n ∧ d.frameStore? = some s) ∧
    ((∀ c ∈ constants, c.place ≤ 65535) →
      r.machine.pool.Holds (constants.map Constant.store)) := by
  subst hr hpast
  have hshows := run_shows m limit ws constants
  refine ⟨map_completed m limit ws constants, ?_, hshows.globals, hshows.frames, ?_, ?_⟩
  · intro d hd
    obtain ⟨hbefore, m', hok⟩ := run_before hd
    exact ⟨hbefore.symm, fun w hw => Completion.exists_store hok hw⟩
  · intro n hn
    exact ⟨exists_enter hn, fun s hs => exists_of_mem_frameStores hs⟩
  · intro hplaces
    have hall : constants.takeWhile (fun c => c.place ≤ maxSlot) = constants :=
      List.takeWhile_eq_self_iff.2 fun c hc => decide_eq_true (hplaces c hc)
    have hpool := hshows.pool
    rwa [hall] at hpool

/-- A frame is left and another one entered, which does not show the 5 of the first.  Slot 3 is
stored twice before the run fails for want of an operand. -/
theorem run_slots_reentered :
    ∃ r past,
      run {} 8 [27, 14, 5, 38, 0, 28, 27, 14, 6, 38, 2, 14, 7, 36, 3, 14, 8, 36, 3, 38, 0]
        [⟨1, .integer 9⟩] = r ∧
      completed {} 8 [27, 14, 5, 38, 0, 28, 27, 14, 6, 38, 2, 14, 7, 36, 3, 14, 8, 36, 3, 38, 0]
        [⟨1, .integer 9⟩] = past ∧
      r.error = some ⟨.stackUnderflow, 19⟩ ∧
      r.machine.globals.Holds [⟨3, .number (.integer 7)⟩, ⟨3, .number (.integer 8)⟩] ∧
      List.Forall₂ Slots.Holds r.machine.frames [[⟨2, .number (.integer 6)⟩]] ∧
      (∀ c ∈ [(⟨1, .integer 9⟩ : Constant)], c.place ≤ 65535) ∧
      r.machine.pool.Holds [⟨1, .number (.integer 9)⟩] := by
  obtain ⟨r, hr⟩ : ∃ r,
      run {} 8 [27, 14, 5, 38, 0, 28, 27, 14, 6, 38, 2, 14, 7, 36, 3, 14, 8, 36, 3, 38, 0]
        [⟨1, .integer 9⟩] = r := ⟨_, rfl⟩
  obtain ⟨past, hpast⟩ : ∃ past,
      completed {} 8 [27, 14, 5, 38, 0, 28, 27, 14, 6, 38, 2, 14, 7, 36, 3, 14, 8, 36, 3, 38, 0]
        [⟨1, .integer 9⟩] = past := ⟨_, rfl⟩
  have herror : r.error = some ⟨.stackUnderflow, 19⟩ := by
    rw [← hr]
    cbv
  have hglobal :
      globalStores past = [⟨3, .number (.integer 7)⟩, ⟨3, .number (.integer 8)⟩] := by
    rw [← hpast]
    cbv
  have hopen : openFrames past = [4] := by
    rw [← hpast]
    cbv
  have hframe : frameStores past 4 = [⟨2, .number (.integer 6)⟩] := by
    rw [← hpast]
    cbv
  have hplaces : ∀ c ∈ [(⟨1, .integer 9⟩ : Constant)], c.place ≤ 65535 := by decide
  obtain ⟨-, -, hglobals, hframes, -, hpool⟩ := run_slots {} 8 _ _ hr hpast
  rw [hglobal] at hglobals
  rw [hopen] at hframes
  obtain ⟨f, frames, hf, hrest, hcons⟩ := List.forall₂_cons_right_iff.1 hframes
  rw [hframe] at hf
  refine ⟨r, past, hr, hpast, herror, hglobals, ?_, hplaces, hpool hplaces⟩
  rw [hcons, List.forall₂_nil_right_iff.1 hrest]
  exact .cons hf .nil

end Machine

end BlockScript
