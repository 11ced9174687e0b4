import BlockScript.Proofs.Machine.Execution

/-!
# Compiled programs do what their trees mean

Two statements about every program that compiles.

* `Engine.executeTree_correct`: on a machine with room for it, the engine does what the interpreter
  of trees does.  It succeeds where the interpreter succeeds, and then its global variables are the
  map of the outermost block.  It fails where the interpreter fails, with the same complaint.
* `Program.compile_safe`: whatever the machine has room for, a run ends with success, with
  arithmetic on a value that is no number, or at one of the three limits.  A limit stops it only if
  the program demands more, and a run that succeeds was within all of them.

Both read off the ways in which a run can end (`Program.run_ending`).
-/

namespace BlockScript

/-! ## The engine after a run -/

namespace Engine

/-- Running a tree that compiles is running its code on a fresh machine. -/
theorem executeTree_of_compile {e : Engine} {p : Program} {c : Compilation}
    (h : p.compile e.settings = .ok c) {r : Run}
    (hr : ({} : Machine).run e.settings.maxStackSize c.words c.constants = r) :
    (e.executeTree p).result =
      ⟨⟨e.settings, c, r.machine⟩,
        r.error.elim (.ok ()) (fun error => .error (.running error))⟩ := by
  have h' : (p.compileLogged e.clear.settings).result = .ok c := h
  have hr' : e.clear.machine.run e.clear.settings.maxStackSize c.words c.constants = r := hr
  simp only [executeTree, executeProgram, h', run, hr']
  cases r.error with
  | none => rfl
  | some error => rfl

/-- A tree that does not compile leaves an engine without a program. -/
theorem executeTree_of_compile_error {e : Engine} {p : Program} {error : Error}
    (h : p.compile e.settings = .error error) :
    (e.executeTree p).result = ⟨e.clear, .error error⟩ := by
  have h' : (p.compileLogged e.clear.settings).result = .error error := h
  simp only [executeTree, executeProgram, h']

/-- The global variables have the names of the first context. -/
theorem globals_of_find? {e : Engine} {x : Context} (h : e.compilation.scopes.find? 0 = some x) :
    e.globals = x.nameList.zipIdx.map fun (name, slot) => (name, e.machine.globals.read slot) := by
  have h' : e.compilation.scopes.global? = some x := h
  rw [globals, h']
  rfl

theorem names_globals {e : Engine} {x : Context} (h : e.compilation.scopes.find? 0 = some x) :
    e.globals.map Prod.fst = x.nameList := by
  rw [globals_of_find? h, List.map_map]
  exact List.zipIdx_map_fst 0 x.nameList

/-- The value of a variable is that in the list of all of them. -/
theorem value_eq_get? (e : Engine) (name : String) :
    e.value name =
      (Bindings.get? e.globals name).elim (.error (.variableNotFound name)) .ok := by
  rw [value, Scopes.globalSlot?, Scopes.global?]
  cases hx : e.compilation.scopes.find? 0 with
  | none =>
      have h' : e.compilation.scopes.global? = none := hx
      rw [globals, h']
      rfl
  | some x =>
      have hnames : Bindings.names e.globals = x.nameList := names_globals hx
      rw [Option.bind_some, Context.slotOf?_eq, Bindings.get?_eq, hnames, globals_of_find? hx]
      by_cases hn : name ∈ x.nameList
      · rw [if_pos hn, if_pos hn, List.getElem?_map, List.getElem?_zipIdx, List.getElem?_idxOf hn]
        simp
      · rw [if_neg hn, if_neg hn]
        rfl

end Engine

/-- Slots that hold a map, listed with its names and some more, are the map and holes behind it. -/
theorem Bindings.StoredIn.zipIdx {b : Bindings} {s : Slots} (h : b.StoredIn s)
    (later : List String) :
    ((b.names ++ later).zipIdx.map fun (name, slot) => (name, s.read slot)) =
      b ++ later.map (·, Value.hole) := by
  apply List.ext_getElem?
  intro i
  rw [List.getElem?_map, List.getElem?_zipIdx, Nat.zero_add, Option.map_map]
  show ((b.names ++ later)[i]?).map (fun name => (name, s.read i)) = _
  rw [h i]
  by_cases hi : i < b.length
  · have hi' : i < b.names.length := by rw [Bindings.length_names]; exact hi
    rw [List.getElem?_append_left hi, List.getElem?_append_left hi', Bindings.names,
      List.getElem?_map, List.getElem?_eq_getElem hi]
    rfl
  · have hi : b.length ≤ i := Nat.le_of_not_lt hi
    have hi' : b.names.length ≤ i := by rw [Bindings.length_names]; exact hi
    rw [List.getElem?_append_right hi, List.getElem?_append_right hi', Bindings.length_names,
      List.getElem?_eq_none hi, List.getElem?_map]
    cases later[i - b.length]? with
    | none => rfl
    | some name => rfl

/-- The global slots hold the map of the outermost block. -/
theorem Represents.getLastD {globals : Slots} {frames : List Slots} {env : List Bindings}
    (h : Represents globals frames env) : (env.getLastD []).StoredIn globals := by
  induction h with
  | root hb => exact hb
  | @block _ _ b env _ hr ih =>
      cases env with
      | nil => exact absurd rfl hr.ne_nil
      | cons b' env => exact ih

/-- The names of the outermost block are declared in the order of the tree. -/
theorem Program.names_root (p : Program) :
    p.interpret.root.names <+: Tree.namesAfterAll [] p.body ∧
      (p.interpret.failure = none →
        p.interpret.root.names = Tree.namesAfterAll [] p.body) := by
  obtain ⟨inner, b, henv, hnames, hdone⟩ := Tree.interpretAll_frame p.body [] []
  have hroot : p.interpret.root = b := by
    rw [Interpreted.root, Program.interpret, henv]
    simp
  rw [hroot]
  exact ⟨hnames, fun hf => (hdone hf).2⟩

/-- The first context of a compiled program has the names of the outermost block. -/
theorem Program.nameList_of_compile {p : Program} {s : Settings} {c : Compilation}
    (h : p.compile s = .ok c) :
    ∃ x, c.scopes.find? 0 = some x ∧ x.nameList = Tree.namesAfterAll [] p.body := by
  have hfirst : c.scopes.outline[0]? =
      some ⟨none, p.site.location, Tree.namesAfterAll [] p.body⟩ := by
    rw [(lowers_of_compile h).2]
    rfl
  obtain ⟨x, hx, hxo⟩ := Scopes.find?_of_outline hfirst
  exact ⟨x, hx, congrArg Outline.names hxo⟩

/-- Global slots that hold the map of the outermost block are listed as this map, and variables that
it does not have yet as holes. -/
theorem Engine.globals_eq {e : Engine} {p : Program} {s : Settings}
    (h : p.compile s = .ok e.compilation) (hs : p.interpret.root.StoredIn e.machine.globals) :
    ∃ later, e.globals = p.interpret.root ++ later.map (·, Value.hole) ∧
      (p.interpret.failure = none → later = []) := by
  obtain ⟨x, hx, hnames⟩ := Program.nameList_of_compile h
  obtain ⟨⟨later, hlater⟩, hdone⟩ := p.names_root
  refine ⟨later, ?_, ?_⟩
  · rw [globals_of_find? hx, hnames, ← hlater]
    exact hs.zipIdx later
  · intro hf
    rw [← hdone hf] at hlater
    exact List.append_right_eq_self.1 hlater

theorem Program.shadowing_fits :
    ∃ c, shadowing.compile {} = .ok c ∧ c.Fits shadowing ({} : Settings).maxStackSize := by
  obtain ⟨code, hlow⟩ := lowers_shadowing
  exact exists_fits hlow ⟨by decide, by decide, by decide⟩ (by decide)

/-! ## Correctness -/

/-- With room for the program, a run ends where the interpreter ends: with the slots of the
outermost block, and with its failure. -/
theorem RunEnding.of_fits {p : Program} {c : Compilation} {limit : Nat} {r : Run}
    (h : RunEnding p c limit r) (hfit : c.Fits p limit) :
    p.interpret.root.StoredIn r.machine.globals ∧
      ((r.error = none ∧ p.interpret.failure = none) ∨
        ∃ kind position, r.error = some ⟨.nonNumeric kind, position⟩ ∧
          p.interpret.failure = some (.nonNumeric kind)) := by
  cases h with
  | done herror hint hb _ _ _ =>
      rw [hint]
      exact ⟨hb, Or.inl ⟨herror, rfl⟩⟩
  | @nonNumeric kind position env herror hint hrep _ =>
      rw [hint]
      exact ⟨hrep.getLastD, Or.inr ⟨kind, position, herror, rfl⟩⟩
  | overflow _ hmem hlim _ => exact absurd (hfit.stack _ hmem) (Nat.not_le.2 hlim)
  | noSlot _ hmem hlim _ => exact absurd (hfit.slots _ hmem) (Nat.not_le.2 hlim)
  | noPlace _ _ hlim => exact absurd hfit.constants (Nat.not_le.2 hlim)

/-- With room for the program, so does the engine. -/
theorem Engine.executeTree_of_fits {e : Engine} {p : Program} {c : Compilation}
    (hc : p.compile e.settings = .ok c) (hfit : c.Fits p e.settings.maxStackSize) :
    (e.executeTree p).result.engine.compilation = c ∧
      p.interpret.root.StoredIn (e.executeTree p).result.engine.machine.globals ∧
      (((e.executeTree p).result.result = .ok () ∧ p.interpret.failure = none) ∨
        ∃ kind position,
          (e.executeTree p).result.result = .error (.running ⟨.nonNumeric kind, position⟩) ∧
          p.interpret.failure = some (.nonNumeric kind)) := by
  obtain ⟨hroot, hend⟩ := (Program.run_ending hc {} e.settings.maxStackSize).of_fits hfit
  rw [executeTree_of_compile hc rfl]
  refine ⟨rfl, hroot, ?_⟩
  obtain ⟨herror, hfail⟩ | ⟨kind, position, herror, hfail⟩ := hend
  · exact Or.inl ⟨by rw [herror]; rfl, hfail⟩
  · exact Or.inr ⟨kind, position, by rw [herror]; rfl, hfail⟩

/-- The variables after a run with success. -/
theorem Engine.globals_of_fits {e : Engine} {p : Program} {c : Compilation}
    (hc : p.compile e.settings = .ok c) (hfit : c.Fits p e.settings.maxStackSize)
    (hok : p.interpret.failure = none) :
    (e.executeTree p).result.result = .ok () ∧
      (e.executeTree p).result.engine.globals = p.interpret.root := by
  obtain ⟨hcomp, hroot, ⟨hresult, -⟩ | ⟨_, _, -, hfail⟩⟩ := executeTree_of_fits hc hfit
  · rw [← hcomp] at hc
    obtain ⟨later, hglobals, hlater⟩ := globals_eq hc hroot
    obtain rfl := hlater hok
    exact ⟨hresult, hglobals.trans (List.append_nil _)⟩
  · rw [hok] at hfail
    cases hfail

/-- The engine does what the interpreter does, if the machine has what the program demands.  It
succeeds exactly where the interpreter does, and fails exactly where the interpreter meets a value
that is no number, which is a hole.  Its variables are then those of the outermost block in the
order of their declaration, and those that the program did not come to are holes. -/
theorem Engine.executeTree_correct (e : Engine) {p : Program} {c : Compilation}
    (hc : p.compile e.settings = .ok c) (hfit : c.Fits p e.settings.maxStackSize) :
    ((e.executeTree p).result.result = .ok () ↔ p.interpret.failure = none) ∧
    (∀ kind, (∃ position,
        (e.executeTree p).result.result = .error (.running ⟨.nonNumeric kind, position⟩)) ↔
      p.interpret.failure = some (.nonNumeric kind)) ∧
    (p.interpret.failure = none ∨ p.interpret.failure = some (.nonNumeric "hole")) ∧
    ∃ later, (e.executeTree p).result.engine.globals =
        p.interpret.root ++ later.map (·, Value.hole) ∧
      (p.interpret.failure = none → later = []) ∧
      ∀ name, (e.executeTree p).result.engine.value name =
        (Bindings.get? (p.interpret.root ++ later.map (·, Value.hole)) name).elim
          (.error (.variableNotFound name)) .ok := by
  obtain ⟨hcomp, hroot, hend⟩ := executeTree_of_fits hc hfit
  rw [← hcomp] at hc
  obtain ⟨later, hglobals, hlater⟩ := globals_eq hc hroot
  have hvalue := fun name => (e.executeTree p).result.engine.value_eq_get? name
  rw [hglobals] at hvalue
  obtain ⟨hresult, hfail⟩ | ⟨kind, position, hresult, hfail⟩ := hend
  · refine ⟨by simp [hresult, hfail], ?_, Or.inl hfail, later, hglobals, hlater, hvalue⟩
    intro kind
    simp [hresult, hfail]
  · have hkind : kind = "hole" := p.interpret_plain.2 _ hfail kind rfl
    refine ⟨by simp [hresult, hfail], ?_, Or.inr (hkind ▸ hfail), later, hglobals, hlater, hvalue⟩
    intro kind'
    simp [hresult, hfail]

theorem Engine.executeTree_shadowing :
    (∃ c, Program.shadowing.compile {} = .ok c ∧
      c.Fits Program.shadowing ({} : Settings).maxStackSize) ∧
    (executeTree {} Program.shadowing).result.result = .ok () ∧
    (executeTree {} Program.shadowing).result.engine.globals =
      [("a", .number (.float ⟨0x3FE0000000000000⟩)),
        ("c", .number (.float ⟨0x3FE0000000000000⟩))] := by
  obtain ⟨c, hc, hfit⟩ := Program.shadowing_fits
  obtain ⟨hok, -, -, later, hglobals, hlater, -⟩ := executeTree_correct {} hc hfit
  obtain rfl := hlater rfl
  exact ⟨⟨c, hc, hfit⟩, hok.2 rfl, hglobals⟩

/-! ## Safety -/

namespace RunEnding

variable {p : Program} {c : Compilation} {limit : Nat} {r : Run}

/-- The faults that a run can have. -/
theorem fault_cases (h : RunEnding p c limit r) {fault : Fault} {position : Nat}
    (he : r.error = some ⟨fault, position⟩) :
    (∃ kind, fault = .nonNumeric kind) ∨
    (fault = .stackOverflow limit ∧ ∃ t ∈ p.initializers, limit < t.need) ∨
    (∃ slot : Nat, fault = .slotOutOfRange slot ∧
      ∃ x ∈ c.scopes.contexts, Machine.maxSlot + 1 < x.slotCount) ∨
    (fault = .constantOutOfRange (Machine.maxSlot + 1 : Nat) ∧
      Machine.maxSlot + 1 < c.scopes.constants.size) := by
  cases h with
  | done herror _ _ _ _ _ => rw [herror] at he; cases he
  | nonNumeric herror _ _ _ =>
      rw [herror] at he
      cases he
      exact Or.inl ⟨_, rfl⟩
  | overflow herror hmem hlim _ =>
      rw [herror] at he
      cases he
      exact Or.inr (Or.inl ⟨rfl, _, hmem, hlim⟩)
  | noSlot herror hmem hlim _ =>
      rw [herror] at he
      cases he
      exact Or.inr (Or.inr (Or.inl ⟨_, rfl, _, hmem, hlim⟩))
  | noPlace herror _ hlim =>
      rw [herror] at he
      cases he
      exact Or.inr (Or.inr (Or.inr ⟨rfl, hlim⟩))

/-- A pool that is too long stops the run before its first line. -/
theorem error_of_lt (h : RunEnding p c limit r)
    (hlim : Machine.maxSlot + 1 < c.scopes.constants.size) :
    r.error = some ⟨.constantOutOfRange (Machine.maxSlot + 1 : Nat), 0⟩ ∧ r.dispatched = #[] := by
  cases h with
  | done _ _ _ _ _ hfit => exact absurd hfit.constants (Nat.not_le.2 hlim)
  | nonNumeric _ _ _ hpool => exact absurd hpool (Nat.not_le.2 hlim)
  | overflow _ _ _ hpool => exact absurd hpool (Nat.not_le.2 hlim)
  | noSlot _ _ _ hpool => exact absurd hpool (Nat.not_le.2 hlim)
  | noPlace herror hdispatched _ => exact ⟨herror, hdispatched⟩

/-- A run that succeeds leaves nothing behind, and the program fits the machine. -/
theorem fits_of_ok (h : RunEnding p c limit r) (he : r.error = none) :
    r.machine.stack = #[] ∧ r.machine.frames = [] ∧ c.Fits p limit := by
  cases h with
  | done _ _ _ hstack hframes hfit => exact ⟨hstack, hframes, hfit⟩
  | nonNumeric herror _ _ _ => rw [herror] at he; cases he
  | overflow herror _ _ _ => rw [herror] at he; cases he
  | noSlot herror _ _ _ => rw [herror] at he; cases he
  | noPlace herror _ _ => rw [herror] at he; cases he

end RunEnding

/-- Compiled code is never malformed, never takes an operand or a frame that is not there, and stops
at a limit only if the program demands more than the limit.  A run that succeeds leaves no operand
and no frame behind, and has shown that the program demands no more than the machine has. -/
theorem Program.compile_safe {p : Program} {s : Settings} {c : Compilation}
    (h : p.compile s = .ok c) (m : Machine) {r : Run}
    (hr : m.run s.maxStackSize c.words c.constants = r) :
    (∀ fault position, r.error = some ⟨fault, position⟩ →
      (∀ w, fault ≠ .unknownOpcode w) ∧ (∀ op, fault ≠ .unimplemented op) ∧
      (∀ op, fault ≠ .truncated op) ∧ fault ≠ .stackUnderflow ∧ ∀ depth, fault ≠ .noFrame depth) ∧
    ((∃ place position, r.error = some ⟨.constantOutOfRange place, position⟩) ↔
      65536 < c.scopes.constants.size) ∧
    (65536 < c.scopes.constants.size →
      r.error = some ⟨.constantOutOfRange 65536, 0⟩ ∧ r.dispatched = #[]) ∧
    (∀ slot position, r.error = some ⟨.slotOutOfRange slot, position⟩ →
      ∃ x ∈ c.scopes.contexts, 65536 < x.slotCount) ∧
    (∀ limit position, r.error = some ⟨.stackOverflow limit, position⟩ →
      limit = s.maxStackSize ∧ ∃ t ∈ p.initializers, s.maxStackSize < t.need) ∧
    (r.error = none →
      r.machine.stack.size = 0 ∧ r.machine.frames.length = 0 ∧
      c.scopes.constants.size ≤ 65536 ∧ (∀ x ∈ c.scopes.contexts, x.slotCount ≤ 65536) ∧
      ∀ t ∈ p.initializers, t.need ≤ s.maxStackSize) := by
  have hend := run_ending h m s.maxStackSize
  rw [hr] at hend
  refine ⟨?_, ⟨?_, ?_⟩, hend.error_of_lt, ?_, ?_, ?_⟩
  · intro fault position he
    obtain ⟨_, rfl⟩ | ⟨rfl, -⟩ | ⟨_, rfl, -⟩ | ⟨rfl, -⟩ := hend.fault_cases he
    · simp
    · simp
    · simp
    · simp
  · rintro ⟨place, position, he⟩
    obtain ⟨_, hf⟩ | ⟨hf, -⟩ | ⟨_, hf, -⟩ | ⟨-, hlim⟩ := hend.fault_cases he
    · cases hf
    · cases hf
    · cases hf
    · exact hlim
  · intro hlim
    exact ⟨_, _, (hend.error_of_lt hlim).1⟩
  · intro slot position he
    obtain ⟨_, hf⟩ | ⟨hf, -⟩ | ⟨_, -, hx⟩ | ⟨hf, -⟩ := hend.fault_cases he
    · cases hf
    · cases hf
    · exact hx
    · cases hf
  · intro limit position he
    obtain ⟨_, hf⟩ | ⟨hf, ht⟩ | ⟨_, hf, -⟩ | ⟨hf, -⟩ := hend.fault_cases he
    · cases hf
    · cases hf
      exact ⟨rfl, ht⟩
    · cases hf
    · cases hf
  · intro he
    obtain ⟨hstack, hframes, hfit⟩ := hend.fits_of_ok he
    exact ⟨by rw [hstack]; rfl, by rw [hframes]; rfl, hfit.constants, hfit.slots, hfit.stack⟩

theorem Program.compile_safe_shadowing :
    ∃ c r, shadowing.compile {} = .ok c ∧ ({} : Machine).run 1024 c.words c.constants = r ∧
      r.error = none ∧ r.machine.stack.size = 0 ∧ r.machine.frames.length = 0 := by
  obtain ⟨c, hc, hfit⟩ := shadowing_fits
  have herror : (({} : Machine).run 1024 c.words c.constants).error = none := by
    obtain ⟨-, ⟨herror, -⟩ | ⟨_, _, -, hfail⟩⟩ := (run_ending hc {} 1024).of_fits hfit
    · exact herror
    · cases hfail
  obtain ⟨-, -, -, -, -, hdone⟩ := compile_safe hc {} rfl
  obtain ⟨hstack, hframes, -⟩ := hdone herror
  exact ⟨c, _, hc, rfl, herror, hstack, hframes⟩

end BlockScript
