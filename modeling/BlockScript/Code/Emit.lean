import BlockScript.Code.Instruction
import BlockScript.Scope.Basic

/-!
# Code generation

A resolved tree becomes code in one walk.  A statement leaves the stack of the machine as it found
it; an expression leaves one value more.  No name is looked up here: slots, depths and places in
the pool are the notes that resolution left in the tree, and only whether a context is global is
asked of the contexts.

Every function adds to the code it is given.  One that fails gives back what it had added so far
together with the error.
-/

namespace BlockScript

/-- Why a tree cannot become code. -/
inductive EmitError where
  /-- The operator can be written but not run. -/
  | unsupportedOperator (op : Operator) (location : Location)
  /-- A node of this kind cannot stand there. -/
  | unexpectedNode (kind : String) (location : Location)
  /-- A note that resolution makes is missing. -/
  | unresolved (what : String) (location : Location)
deriving DecidableEq

/-- The error in words. -/
def EmitError.message : EmitError → String
  | unsupportedOperator op l =>
    s!"CompileError: operator '{op.symbol}' is not supported at {l.text}"
  | unexpectedNode kind l => s!"CompileError: unexpected {kind} at {l.text}"
  | unresolved what l => s!"CompileError: unresolved {what} at {l.text}"

/-- The code, or an error and the code up to it. -/
abbrev Emitted := Except (EmitError × Code) Code

/-- Fails with the code so far. -/
def Emitted.fail (code : Code) (e : EmitError) : Emitted := .error (e, code)

/-- The operation of an arithmetic operator. -/
def Arithmetic.operation : Arithmetic → Operation
  | add => .add
  | sub => .sub
  | mul => .mul
  | div => .div

/-- The instruction that loads a variable. -/
def Binding.load (b : Binding) : Instruction :=
  match b.reach with
  | .global => Operation.loadGlobal.on [.slot b.slot]
  | .frame 0 => Operation.loadSlot.on [.slot b.slot]
  | .frame depth => Operation.loadOuterSlot.on [.slot b.slot, .depth depth]

/-- Code for an expression. -/
def Tree.emitExpression : Tree → Code → Emitted
  | t@(.block ..), code | t@(.declaration ..), code =>
    .fail code (.unexpectedNode t.kindName t.location)
  | .operation site op left right, code =>
    match op with
    | .arithmetic a =>
      match left.emitExpression code with
      | .error e => .error e
      | .ok code =>
        match right.emitExpression code with
        | .error e => .error e
        | .ok code => .ok (code.push (a.operation.on []))
    | .equal | .notEqual => .fail code (.unsupportedOperator op site.location)
  | .identifier site _ binding, code =>
    match binding with
    | some b => .ok (code.push b.load)
    | none => .fail code (.unresolved "identifier" site.location)
  | .literal site value constant, code =>
    match value.inline?, constant with
    | some n, _ => .ok (code.push (Operation.loadInteger.on [.immediate n]))
    | none, some place => .ok (code.push (Operation.loadConstant.on [.constant place]))
    | none, none => .fail code (.unresolved "number literal" site.location)

mutual

/-- Code for a statement. -/
def Tree.emitStatement (scopes : Scopes) : Tree → Code → Emitted
  | .block site body, code =>
    match site.context with
    | none => .fail code (.unresolved "block" site.location)
    | some id =>
      match scopes.find? id with
      | none => .fail code (.unresolved "context" site.location)
      | some c =>
        if c.isGlobal then Tree.emitStatements scopes body code
        else
          match Tree.emitStatements scopes body (code.push (Operation.enter.on [])) with
          | .error e => .error e
          | .ok code => .ok (code.push (Operation.leave.on []))
  | .declaration site _ slot init, code =>
    match site.context, slot with
    | some id, some slot =>
      match init.emitExpression code with
      | .error e => .error e
      | .ok code =>
        match scopes.find? id with
        | none => .fail code (.unresolved "context" site.location)
        | some c =>
          let store := if c.isGlobal then Operation.storeGlobal else Operation.storeSlot
          .ok (code.push (store.on [.slot slot]))
    | _, _ => .fail code (.unresolved "variable declaration" site.location)
  | t@(.operation ..), code | t@(.identifier ..), code | t@(.literal ..), code =>
    .fail code (.unexpectedNode t.kindName t.location)

/-- Code for statements in order. -/
def Tree.emitStatements (scopes : Scopes) : List Tree → Code → Emitted
  | [], code => .ok code
  | t :: ts, code =>
    match t.emitStatement scopes code with
    | .error e => .error e
    | .ok code => Tree.emitStatements scopes ts code

end

/-- Code for a program, added to the code that is there already. -/
def Program.emit (scopes : Scopes) (p : Program) (code : Code) : Emitted :=
  p.toTree.emitStatement scopes code

/-! ## One program after the other -/

/-- Generates code for one program after the other. -/
structure Emitter where
  /-- The code that programs without success left behind, since the last one with success. -/
  left : Code := #[]

/--
Generates the code of a program behind what is left.  Success hands all of it over and leaves
nothing; failure leaves the code up to the error.
-/
def Emitter.emit (e : Emitter) (scopes : Scopes) (p : Program) : Emitter × Except EmitError Code :=
  match p.emit scopes e.left with
  | .ok code => ({}, .ok code)
  | .error (error, code) => (⟨code⟩, .error error)

end BlockScript
