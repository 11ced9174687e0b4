import BlockScript.Proofs.Correctness
import BlockScript.Proofs.Machine.Globals

/-!
# Sessions

A *session* is a sequence of calls on one engine, each with a source or a tree.  A call may fail at
any step on its way, and what the engine has after it is kept in three places: the contexts, the
code and the machine.

`Engine.session_independent` says that a call does what it does on a fresh engine, whatever the
session was before it, and that the three places agree after every call.  The names of the global
variables are those that the program declares in its outermost block, and there are none after a
call that did not come to run.
-/

namespace BlockScript

/-! ## The names of a program -/

/-- The names that a node declares in the block around it, in order. -/
def Tree.declarations : Tree → List String
  | block .. => []
  | declaration _ name _ init => name :: init.declarations
  | operation _ _ left right => left.declarations ++ right.declarations
  | identifier .. => []
  | literal .. => []

/-- The names that a program declares in its outermost block, in order. -/
def Program.declarations (p : Program) : List String := p.body.flatMap Tree.declarations

/-- The context of a block has the names that are declared in it, each once. -/
theorem Tree.namesAfter_eraseDups : ∀ (t : Tree) (ns : List String),
    t.namesAfter ns.eraseDups = (ns ++ t.declarations).eraseDups
  | block .., ns => by rw [declarations, List.append_nil, namesAfter]
  | declaration _ name _ init, ns => by
      rw [namesAfter, ← eraseDups_concat, init.namesAfter_eraseDups, declarations,
        List.append_assoc, List.singleton_append]
  | operation _ _ left right, ns => by
      rw [namesAfter, left.namesAfter_eraseDups, right.namesAfter_eraseDups, declarations,
        List.append_assoc]
  | identifier .., ns => by rw [declarations, List.append_nil, namesAfter]
  | literal .., ns => by rw [declarations, List.append_nil, namesAfter]

theorem Tree.namesAfterAll_eraseDups : ∀ (ts : List Tree) (ns : List String),
    namesAfterAll ns.eraseDups ts = (ns ++ ts.flatMap declarations).eraseDups
  | [], ns => by rw [List.flatMap_nil, List.append_nil, namesAfterAll]
  | t :: ts, ns => by
      rw [namesAfterAll, t.namesAfter_eraseDups, namesAfterAll_eraseDups ts, List.flatMap_cons,
        List.append_assoc]

theorem Program.namesAfterAll_eq (p : Program) :
    Tree.namesAfterAll [] p.body = p.declarations.eraseDups :=
  Tree.namesAfterAll_eraseDups p.body []

/-! ## Calls -/

/-- A call of an engine. -/
inductive Call where
  /-- To run a source. -/
  | source (text : String)
  /-- To run a tree. -/
  | tree (p : Program)

namespace Call

/-- The program to run. -/
def program (s : Settings) : Call → Except Error Program
  | source text => s.parse text
  | tree p => .ok p

/-- The event with which the call starts. -/
def start (s : Settings) : Call → Event
  | source _ => .executing s.fileName
  | tree _ => .executingTree

end Call

namespace Engine

/-- Makes a call. -/
def make (e : Engine) : Call → Logged Executed
  | .source text => e.execute text
  | .tree p => e.executeTree p

/-- The engine after the calls of a session. -/
def after (s : Settings) (calls : List Call) : Engine :=
  calls.foldl (fun e c => (e.make c).result.engine) { settings := s }

theorem make_eq (e : Engine) (c : Call) :
    e.make c = e.executeProgram (c.start e.settings) (c.program e.settings) := by
  cases c with
  | source text => rfl
  | tree p => rfl

/-- What a call comes to: an error before the run, or a run of the code on a fresh machine. -/
inductive Outcome (s : Settings) (c : Call) : Executed → Prop where
  | rejected {error : Error} : (∀ e, error ≠ .running e) →
      Outcome s c ⟨{ settings := s }, .error error⟩
  | ran {p : Program} {code : Compilation} {r : Run} : c.program s = .ok p →
      p.compile s = .ok code →
      ({} : Machine).run s.maxStackSize code.words code.constants = r →
      Outcome s c ⟨⟨s, code, r.machine⟩,
        r.error.elim (.ok ()) (fun error => .error (.running error))⟩

/-- No error of a source that is no program is one of a run. -/
theorem program_ne_running {s : Settings} {c : Call} {error : Error}
    (h : c.program s = .error error) : ∀ e, error ≠ .running e := by
  cases c with
  | tree p => cases h
  | source text =>
      rw [Call.program, Settings.parse] at h
      cases hp : Program.parse s.fileName text with
      | error e =>
          rw [hp] at h
          cases h
          exact fun _ => Error.noConfusion
      | ok p =>
          rw [hp] at h
          cases h

/-- No error of a program that has no code is one of a run. -/
theorem compile_ne_running {s : Settings} {p : Program} {error : Error}
    (h : p.compile s = .error error) : ∀ e, error ≠ .running e := by
  simp only [Program.compile, Program.compileLogged] at h
  split at h
  next =>
    cases h
    exact fun _ => Error.noConfusion
  next =>
    split at h
    next =>
      cases h
      exact fun _ => Error.noConfusion
    next => cases h

/-- A program runs alike from a source and from a tree. -/
theorem result_executeProgram (e : Engine) (start : Event) (p : Program) :
    (e.executeProgram start (.ok p)).result = (e.executeTree p).result := by
  simp only [executeTree, executeProgram]
  cases (p.compileLogged e.clear.settings).result with
  | error error => rfl
  | ok code => rfl

theorem make_outcome (e : Engine) (c : Call) : Outcome e.settings c (e.make c).result := by
  rw [make_eq]
  cases hp : c.program e.settings with
  | error error => exact .rejected (program_ne_running hp)
  | ok p =>
      rw [result_executeProgram]
      cases hc : p.compile e.settings with
      | error error =>
          rw [executeTree_of_compile_error hc]
          exact .rejected (compile_ne_running hc)
      | ok code =>
          rw [executeTree_of_compile hc rfl]
          exact .ran hp hc rfl

/-- A call starts afresh: of the engine it uses the settings. -/
theorem make_clear (e : Engine) (c : Call) : e.clear.make c = e.make c := by
  rw [make_eq, make_eq]
  rfl

theorem Outcome.settings_eq {s : Settings} {c : Call} {x : Executed} (h : Outcome s c x) :
    x.engine.settings = s := by
  cases h with
  | rejected _ => rfl
  | ran _ _ _ => rfl

theorem after_concat (s : Settings) (calls : List Call) (c : Call) :
    after s (calls ++ [c]) = ((after s calls).make c).result.engine := by
  rw [after, List.foldl_concat]
  rfl

theorem settings_after (s : Settings) (calls : List Call) : (after s calls).settings = s := by
  induction calls using List.reverseRecOn with
  | nil => rfl
  | append_singleton calls c ih =>
      rw [after_concat, ((after s calls).make_outcome c).settings_eq, ih]

/-- After an error before the run the engine is fresh. -/
theorem Outcome.eq_of_rejected {s : Settings} {c : Call} {e : Engine} {error : Error}
    (h : Outcome s c ⟨e, .error error⟩) (he : ∀ r, error ≠ .running r) : e = { settings := s } := by
  generalize hx : (⟨e, .error error⟩ : Executed) = x at h
  cases h with
  | rejected _ =>
      cases hx
      rfl
  | @ran _ _ r _ _ _ =>
      have hresult := congrArg Executed.result hx
      cases hr : r.error with
      | none =>
          rw [hr] at hresult
          cases hresult
      | some fault =>
          rw [hr] at hresult
          cases hresult
          exact absurd rfl (he fault)

/-- After success or an error of the run the engine has the code and the machine of the run. -/
theorem Outcome.exists_of_ran {s : Settings} {c : Call} {e : Engine} {result : Except Error Unit}
    (h : Outcome s c ⟨e, result⟩) (hran : result = .ok () ∨ ∃ r, result = .error (.running r)) :
    ∃ p code r, c.program s = .ok p ∧ p.compile s = .ok code ∧
      ({} : Machine).run s.maxStackSize code.words code.constants = r ∧
      e = ⟨s, code, r.machine⟩ ∧ (result = .ok () → r.error = none) := by
  generalize hx : (⟨e, result⟩ : Executed) = x at h
  cases h with
  | rejected he =>
      cases hx
      obtain hran | ⟨r, hran⟩ := hran
      · cases hran
      · cases hran
        exact absurd rfl (he r)
  | @ran p code r hp hc hr =>
      cases hx
      refine ⟨p, code, r, hp, hc, hr, rfl, ?_⟩
      intro hok
      cases herror : r.error with
      | none => rfl
      | some fault =>
          rw [herror] at hok
          cases hok

/-! ## Queries -/

/-- The answers of an engine agree with each other. -/
structure Agrees (e : Engine) : Prop where
  /-- The variables with values are those listed. -/
  values : ∀ name v, e.value name = .ok v ↔ (name, v) ∈ e.globals
  /-- No name is listed twice. -/
  nodup : (e.globals.map Prod.fst).Nodup
  /-- The list is in the order of the slots. -/
  slots : ∀ (slot : Nat) (name : String) (v : Value), e.globals[slot]? = some (name, v) →
    e.compilation.scopes.globalSlot? name = some slot

/-- An engine without contexts knows no variables. -/
theorem agrees_fresh (s : Settings) : ({ settings := s } : Engine).Agrees where
  values _ _ := ⟨nofun, nofun⟩
  nodup := List.nodup_nil
  slots _ _ _ := nofun

theorem getElem?_globals {e : Engine} {x : Context} (hx : e.compilation.scopes.find? 0 = some x)
    {slot : Nat} {name : String} {v : Value} :
    e.globals[slot]? = some (name, v) ↔
      x.nameList[slot]? = some name ∧ e.machine.globals.read slot = v := by
  rw [globals_of_find? hx, List.getElem?_map, List.getElem?_zipIdx]
  simp

theorem value_eq_ok_iff {e : Engine} {x : Context} (hx : e.compilation.scopes.find? 0 = some x)
    {name : String} {v : Value} :
    e.value name = .ok v ↔
      ∃ slot, x.slotOf? name = some slot ∧ e.machine.globals.read slot = v := by
  have hslot : e.compilation.scopes.globalSlot? name = x.slotOf? name := by
    rw [Scopes.globalSlot?, Scopes.global?, hx]
    rfl
  rw [value, hslot]
  cases x.slotOf? name with
  | none => simp
  | some slot => simp

theorem exists_value_iff {e : Engine} {x : Context} (hx : e.compilation.scopes.find? 0 = some x)
    {name : String} : (∃ v, e.value name = .ok v) ↔ name ∈ x.nameList := by
  simp [value_eq_ok_iff hx, Context.slotOf?_eq_some]

/-- With no name in two slots, the answers agree. -/
theorem agrees_of_nodup {e : Engine} {x : Context} (hx : e.compilation.scopes.find? 0 = some x)
    (hn : x.nameList.Nodup) : e.Agrees where
  values name v := by
    simp only [value_eq_ok_iff hx, List.mem_iff_getElem?, getElem?_globals hx,
      Context.slotOf?_eq_some_iff hn]
  nodup := by
    rw [names_globals hx]
    exact hn
  slots slot name v h := by
    have hslot : x.slotOf? name = some slot :=
      (Context.slotOf?_eq_some_iff hn).2 ((getElem?_globals hx).1 h).1
    rw [Scopes.globalSlot?, Scopes.global?, hx]
    exact hslot

theorem Outcome.agrees {s : Settings} {c : Call} {x : Executed} (h : Outcome s c x) :
    x.engine.Agrees := by
  cases h with
  | rejected _ => exact agrees_fresh s
  | ran _ hc _ =>
      obtain ⟨ctx, hctx, hnames⟩ := Program.nameList_of_compile hc
      refine agrees_of_nodup hctx ?_
      rw [hnames, Program.namesAfterAll_eq]
      exact nodup_eraseDups _

theorem agrees_after (s : Settings) (calls : List Call) : (after s calls).Agrees := by
  cases calls using List.reverseRecOn with
  | nil => exact agrees_fresh s
  | append_singleton calls c =>
      rw [after_concat]
      exact ((after s calls).make_outcome c).agrees

/--
A call does what it does on a fresh engine with the same settings, whatever calls were made before,
and the engine's answers agree after every call.  After an error before the run the engine has no
code and no variables.  Otherwise its variables are those that the program declares in its outermost
block, and after success the machine has a global slot for each of them.
-/
theorem session_independent (s : Settings) (calls : List Call) :
    (after s calls).Agrees ∧ ∀ c : Call,
      (after s calls).make c = ({ settings := s } : Engine).make c ∧
      ∀ e result, ((after s calls).make c).result = ⟨e, result⟩ →
        (∀ error, result = .error error → (∀ r, error ≠ .running r) →
          e.globals = [] ∧ e.compilation.code = #[] ∧
          ∀ name, e.value name = .error (.variableNotFound name)) ∧
        ((result = .ok () ∨ ∃ r, result = .error (.running r)) →
          ∃ p, c.program s = .ok p ∧
            (∀ name, (∃ v, e.value name = .ok v) ↔ name ∈ p.declarations) ∧
            (result = .ok () → e.machine.globals.size = p.declarations.eraseDups.length)) := by
  refine ⟨agrees_after s calls, ?_⟩
  intro c
  have hsettings := settings_after s calls
  refine ⟨?_, ?_⟩
  · rw [← make_clear, clear, hsettings]
  · intro e result hmake
    have hout := (after s calls).make_outcome c
    rw [hmake, hsettings] at hout
    refine ⟨?_, ?_⟩
    · rintro error rfl hne
      rw [hout.eq_of_rejected hne]
      exact ⟨rfl, rfl, fun _ => rfl⟩
    · intro hran
      obtain ⟨p, code, r, hp, hc, rfl, rfl, herror⟩ := hout.exists_of_ran hran
      obtain ⟨x, hx, hnames⟩ := Program.nameList_of_compile hc
      rw [Program.namesAfterAll_eq] at hnames
      refine ⟨p, hp, ?_, ?_⟩
      · intro name
        rw [exists_value_iff hx, hnames, List.mem_eraseDups]
      · intro hok
        rw [← Program.namesAfterAll_eq]
        exact Program.size_globals hc (herror hok)

/-- After a source that did not resolve, a program with an inner block runs as on a fresh engine. -/
theorem session_independent_shadowing :
    ∃ e, ((after {} [.source "var x = y;"]).make (.tree Program.shadowing)).result = ⟨e, .ok ()⟩ ∧
      e.machine.globals.size = 2 ∧ (∃ v, e.value "c" = .ok v) ∧ ¬∃ v, e.value "b" = .ok v := by
  obtain ⟨code, hc, hfit⟩ := Program.shadowing_fits
  have hsettings := settings_after {} [.source "var x = y;"]
  obtain ⟨hok, -⟩ := globals_of_fits (e := after {} [.source "var x = y;"])
    (hsettings.symm ▸ hc) (hsettings.symm ▸ hfit) rfl
  obtain ⟨-, hcalls⟩ := session_independent {} [.source "var x = y;"]
  obtain ⟨-, hlast⟩ := hcalls (.tree Program.shadowing)
  obtain ⟨-, hran⟩ := hlast _ (.ok ()) (congrArg (Executed.mk _) hok)
  obtain ⟨p, hp, hvalues, hsize⟩ := hran (.inl rfl)
  cases hp
  refine ⟨_, congrArg (Executed.mk _) hok, hsize rfl, ?_, ?_⟩
  · rw [hvalues]
    decide
  · rw [hvalues]
    decide

end Engine

end BlockScript
