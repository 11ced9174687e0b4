import BlockScript.Code.Emit
import Mathlib.Data.List.DropRight

/-!
# One emitter for many programs

An emitter never looks at the code that it adds to.  So the code of a tree, and also what a tree
leaves that fails, is the same behind any other code (`Tree.emitStatement_append`), and with it the
error.

Programs that are given to one emitter are told apart by this.  What waits in the emitter before a
program is its *backlog*: what the programs since the last success have left, each as it would leave
it on an emitter of its own.  The main statement, `Emitter.getElem?_emitAll`, says that the backlog
goes in front of the code of the next program and that nothing else is passed on.
-/

namespace BlockScript

/-! ## Emission behind other code -/

/-- The outcome with other code in front. -/
def Emitted.behind (front : Code) : Emitted → Emitted
  | .ok code => .ok (front ++ code)
  | .error (e, code) => .error (e, front ++ code)

/-- If each of two steps is the same behind other code, so is one after the other. -/
theorem Emitted.behind_bind {front : Code} {f g : Code → Emitted} (a : Emitted)
    (h : ∀ code, g (front ++ code) = (f code).behind front) :
    (match a.behind front with
      | .error e => .error e
      | .ok code => g code) =
    Emitted.behind front (match a with
      | .error e => .error e
      | .ok code => f code) := by
  cases a with
  | ok code => exact h code
  | error e => rfl

/-- One instruction more is the last also behind other code. -/
theorem Emitted.behind_push (front code : Code) (i : Instruction) :
    (.ok ((front ++ code).push i) : Emitted) = Emitted.behind front (.ok (code.push i)) := by
  rw [behind, Array.append_push]

namespace Tree

/-- The code of an expression is the same behind other code. -/
theorem emitExpression_append : ∀ (t : Tree) (front code : Code),
    t.emitExpression (front ++ code) = (t.emitExpression code).behind front
  | block .., front, code => rfl
  | declaration .., front, code => rfl
  | operation site op left right, front, code => by
      cases op with
      | equal | notEqual => rfl
      | arithmetic a =>
          simp only [emitExpression]
          rw [left.emitExpression_append]
          refine Emitted.behind_bind _ fun code => ?_
          rw [right.emitExpression_append]
          exact Emitted.behind_bind _ fun code => Emitted.behind_push front code _
  | identifier site name binding, front, code => by
      cases binding with
      | none => rfl
      | some b => exact Emitted.behind_push front code _
  | literal site value constant, front, code => by
      simp only [emitExpression]
      split
      next => exact Emitted.behind_push front code _
      next => exact Emitted.behind_push front code _
      next => rfl

mutual

/-- The code of a statement is the same behind other code. -/
theorem emitStatement_append (scopes : Scopes) : ∀ (t : Tree) (front code : Code),
    t.emitStatement scopes (front ++ code) = (t.emitStatement scopes code).behind front
  | block site body, front, code => by
      simp only [emitStatement]
      split
      next => rfl
      next id _ =>
        split
        next => rfl
        next c _ =>
          split
          next => exact emitStatements_append scopes body front code
          next =>
            rw [← Array.append_push, emitStatements_append scopes body]
            exact Emitted.behind_bind _ fun code => Emitted.behind_push front code _
  | declaration site name slot init, front, code => by
      simp only [emitStatement]
      split
      next id slot _ =>
        rw [init.emitExpression_append]
        refine Emitted.behind_bind _ fun code => ?_
        split
        next => rfl
        next c _ => exact Emitted.behind_push front code _
      next => rfl
  | operation .., front, code => rfl
  | identifier .., front, code => rfl
  | literal .., front, code => rfl

theorem emitStatements_append (scopes : Scopes) : ∀ (ts : List Tree) (front code : Code),
    emitStatements scopes ts (front ++ code) = (emitStatements scopes ts code).behind front
  | [], front, code => rfl
  | t :: ts, front, code => by
      rw [emitStatements, emitStatements, emitStatement_append scopes t]
      exact Emitted.behind_bind _ fun code => emitStatements_append scopes ts front code

end

end Tree

/-! ## One program after the other -/

namespace Emitter

/-- What a program leads to on an emitter of its own: what it leaves there, and its code or
error. -/
def alone (scopes : Scopes) (p : Program) : Emitter × Except EmitError Code :=
  ({} : Emitter).emit scopes p

/-- What programs lead to on one emitter, one after the other. -/
def emitAll (e : Emitter) (scopes : Scopes) :
    List Program → List (Emitter × Except EmitError Code)
  | [] => []
  | p :: ps => e.emit scopes p :: emitAll (e.emit scopes p).1 scopes ps

/-- The emitter after programs. -/
def after (e : Emitter) (scopes : Scopes) (ps : List Program) : Emitter :=
  ps.foldl (fun e p => (e.emit scopes p).1) e

/-- The code that the last programs leave, back to one that succeeds, each on an emitter of its
own. -/
def backlog (scopes : Scopes) (ps : List Program) : Code :=
  ((ps.rtakeWhile fun p => !(alone scopes p).2.isOk).flatMap fun p =>
    (alone scopes p).1.left.toList).toArray

/-- An emitter does what one of its own would do, behind what is left in it. -/
theorem emit_eq (e : Emitter) (scopes : Scopes) (p : Program) :
    e.emit scopes p =
      match alone scopes p with
      | (_, .ok code) => ({}, .ok (e.left ++ code))
      | (rest, .error error) => (⟨e.left ++ rest.left⟩, .error error) := by
  have hbehind : p.emit scopes e.left = (p.emit scopes #[]).behind e.left :=
    p.toTree.emitStatement_append scopes e.left #[]
  rw [alone, emit, emit, hbehind]
  cases p.emit scopes #[] with
  | ok code => rfl
  | error e => rfl

/-- A program that succeeds ends the backlog, and one that fails adds to it. -/
theorem backlog_concat (scopes : Scopes) (ps : List Program) (p : Program) :
    backlog scopes (ps ++ [p]) =
      match alone scopes p with
      | (_, .ok _) => #[]
      | (rest, .error _) => backlog scopes ps ++ rest.left := by
  rw [backlog, List.rtakeWhile_concat]
  cases h : alone scopes p with
  | mk rest outcome =>
      cases outcome with
      | ok code => rfl
      | error e => simp [Except.isOk, Except.toBool, backlog, h]

/-- After programs their backlog is left. -/
theorem left_after (scopes : Scopes) (ps : List Program) :
    (after {} scopes ps).left = backlog scopes ps := by
  induction ps using List.reverseRecOn with
  | nil => rfl
  | append_singleton ps p ih =>
      have hstep : after {} scopes (ps ++ [p]) = ((after {} scopes ps).emit scopes p).1 :=
        List.foldl_concat ..
      rw [hstep, emit_eq, backlog_concat, ih]
      cases alone scopes p with
      | mk rest outcome =>
          cases outcome with
          | ok code => rfl
          | error e => rfl

/-- Each program meets the emitter that those before it leave. -/
theorem getElem?_emitAll_after (scopes : Scopes) (ps : List Program) :
    ∀ (e : Emitter) (i : Nat), (e.emitAll scopes ps)[i]? =
      ps[i]?.map fun p => (e.after scopes (ps.take i)).emit scopes p := by
  induction ps with
  | nil => intro e i; rfl
  | cons p ps ih =>
      intro e i
      cases i with
      | zero => rfl
      | succ i => exact ih _ i

/--
Of many programs on one emitter, each succeeds or fails as on an emitter of its own, with the same
error.  If it succeeds, its code is the backlog of those before it and behind that the code that is
its own, and nothing is left.  If it fails, the backlog is left and behind that what it would leave
on an emitter of its own.
-/
theorem getElem?_emitAll (scopes : Scopes) (ps : List Program) (i : Nat) :
    (({} : Emitter).emitAll scopes ps)[i]? = ps[i]?.map fun p =>
      match alone scopes p with
      | (_, .ok code) => ({}, .ok (backlog scopes (ps.take i) ++ code))
      | (rest, .error error) => (⟨backlog scopes (ps.take i) ++ rest.left⟩, .error error) := by
  rw [getElem?_emitAll_after]
  congr 1
  funext p
  rw [← left_after]
  exact emit_eq (after {} scopes (ps.take i)) scopes p

end Emitter

end BlockScript
