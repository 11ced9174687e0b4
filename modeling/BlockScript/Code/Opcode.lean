/-!
# Operation codes

The catalogue of operation codes is a fixed list of names; the number of a code is its place in the
list.  The machine can run thirteen of them, which are the constructors of `Operation`.  The others
are reserved: they have a name and a number, take no operands, and stop the machine.
-/

namespace BlockScript

/-- The size of the catalogue. -/
def Opcode.count : Nat := 187

/-- An operation code, by its number. -/
structure Opcode where
  /-- The place in the catalogue. -/
  number : Fin Opcode.count
deriving DecidableEq

/-- The catalogue. -/
def Opcode.names : Vector String Opcode.count :=
  #v[
    "None", "Wide", "ExtraWide", "DebugBreakWide", "DebugBreakExtraWide", "DebugBreak0",
    "DebugBreak1", "DebugBreak2", "DebugBreak3", "DebugBreak4", "DebugBreak5", "DebugBreak6",
    "Ldar", "LdaZero", "LdaSmi", "LdaUndefined", "LdaNull", "LdaTheHole", "LdaTrue", "LdaFalse",
    "LdaConstant", "LdaContextSlot", "LdaImmutableContextSlot", "LdaCurrentContextSlot",
    "LdaImmutableCurrentContextSlot", "Star", "Mov", "PushContext", "PopContext",
    "TestReferenceEqual", "TestUndetectable", "TestNull", "TestUndefined", "TestTypeOf",
    "LdaGlobal", "LdaGlobalInsideTypeof", "StaGlobal", "StaContextSlot", "StaCurrentContextSlot",
    "StaScriptContextSlot", "StaCurrentScriptContextSlot", "LdaLookupSlot",
    "LdaLookupContextSlot", "LdaLookupGlobalSlot", "LdaLookupSlotInsideTypeof",
    "LdaLookupContextSlotInsideTypeof", "LdaLookupGlobalSlotInsideTypeof", "StaLookupSlot",
    "GetNamedProperty", "GetNamedPropertyFromSuper", "GetKeyedProperty",
    "GetEnumeratedKeyedProperty", "LdaModuleVariable", "StaModuleVariable", "SetNamedProperty",
    "DefineNamedOwnProperty", "SetKeyedProperty", "DefineKeyedOwnProperty", "StaInArrayLiteral",
    "DefineKeyedOwnPropertyInLiteral", "Add", "Sub", "Mul", "Div", "Mod", "Exp", "BitwiseOr",
    "BitwiseXor", "BitwiseAnd", "ShiftLeft", "ShiftRight", "ShiftRightLogical", "AddSmi",
    "SubSmi", "MulSmi", "DivSmi", "ModSmi", "ExpSmi", "BitwiseOrSmi", "BitwiseXorSmi",
    "BitwiseAndSmi", "ShiftLeftSmi", "ShiftRightSmi", "ShiftRightLogicalSmi", "Inc", "Dec",
    "Negate", "BitwiseNot", "ToBooleanLogicalNot", "LogicalNot", "TypeOf", "DeletePropertyStrict",
    "DeletePropertySloppy", "GetSuperConstructor", "FindNonDefaultConstructorOrConstruct",
    "CallAnyReceiver", "CallProperty", "CallProperty0", "CallProperty1", "CallProperty2",
    "CallUndefinedReceiver", "CallUndefinedReceiver0", "CallUndefinedReceiver1",
    "CallUndefinedReceiver2", "CallWithSpread", "CallRuntime", "CallRuntimeForPair",
    "CallJSRuntime", "InvokeIntrinsic", "Construct", "ConstructWithSpread",
    "ConstructForwardAllArgs", "TestEqual", "TestEqualStrict", "TestLessThan", "TestGreaterThan",
    "TestLessThanOrEqual", "TestGreaterThanOrEqual", "TestInstanceOf", "TestIn", "ToName",
    "ToNumber", "ToNumeric", "ToObject", "ToString", "ToBoolean", "CreateRegExpLiteral",
    "CreateArrayLiteral", "CreateArrayFromIterable", "CreateEmptyArrayLiteral",
    "CreateObjectLiteral", "CreateEmptyObjectLiteral", "CloneObject", "GetTemplateObject",
    "CreateClosure", "CreateBlockContext", "CreateCatchContext", "CreateFunctionContext",
    "CreateEvalContext", "CreateWithContext", "CreateMappedArguments", "CreateUnmappedArguments",
    "CreateRestParameter", "JumpLoop", "Jump", "JumpConstant", "JumpIfNullConstant",
    "JumpIfNotNullConstant", "JumpIfUndefinedConstant", "JumpIfUndefinedOrNullConstant",
    "JumpIfTrueConstant", "JumpIfFalseConstant", "JumpIfJSReceiverConstant",
    "JumpIfForInDoneConstant", "JumpIfToBooleanTrueConstant", "JumpIfToBooleanFalseConstant",
    "JumpIfToBooleanTrue", "JumpIfToBooleanFalse", "JumpIfTrue", "JumpIfFalse", "JumpIfNull",
    "JumpIfNotNull", "JumpIfUndefined", "JumpIfNotUndefined", "JumpIfUndefinedOrNull",
    "JumpIfJSReceiver", "JumpIfForInDone", "SwitchOnSmiNoFeedback", "ForInEnumerate",
    "ForInPrepare", "ForInNext", "ForInStep", "SetPendingMessage", "Throw", "ReThrow", "Return",
    "ThrowReferenceErrorIfHole", "ThrowSuperNotCalledIfHole", "ThrowSuperAlreadyCalledIfNotHole",
    "ThrowIfNotSuperConstructor", "SwitchOnGeneratorState", "SuspendGenerator", "ResumeGenerator",
    "GetIterator", "Debugger", "IncBlockCounter", "Abort"]

/-- The operations that the machine can run. -/
inductive Operation where
  /-- Pushes the integer in the code. -/
  | loadInteger
  /-- Pushes a constant. -/
  | loadConstant
  /-- Pushes a slot of a frame further out. -/
  | loadOuterSlot
  /-- Pushes a slot of the innermost frame. -/
  | loadSlot
  /-- Opens an empty frame. -/
  | enter
  /-- Drops the innermost frame. -/
  | leave
  /-- Pushes a global variable. -/
  | loadGlobal
  /-- Pops a value into a global variable. -/
  | storeGlobal
  /-- Pops a value into a slot of the innermost frame. -/
  | storeSlot
  | add
  | sub
  | mul
  | div
deriving DecidableEq

/-- The operation code of an operation. -/
def Operation.opcode : Operation → Opcode
  | loadInteger => ⟨14, by decide⟩
  | loadConstant => ⟨20, by decide⟩
  | loadOuterSlot => ⟨21, by decide⟩
  | loadSlot => ⟨23, by decide⟩
  | enter => ⟨27, by decide⟩
  | leave => ⟨28, by decide⟩
  | loadGlobal => ⟨34, by decide⟩
  | storeGlobal => ⟨36, by decide⟩
  | storeSlot => ⟨38, by decide⟩
  | add => ⟨60, by decide⟩
  | sub => ⟨61, by decide⟩
  | mul => ⟨62, by decide⟩
  | div => ⟨63, by decide⟩

/-- The number of operands of an operation. -/
def Operation.arity : Operation → Nat
  | loadInteger | loadConstant | loadGlobal | storeGlobal | loadSlot | storeSlot => 1
  | loadOuterSlot => 2
  | enter | leave | add | sub | mul | div => 0

namespace Opcode

/-- The operation of a code; `none` if it is reserved. -/
def operation? (op : Opcode) : Option Operation :=
  match op.number.val with
  | 14 => some .loadInteger
  | 20 => some .loadConstant
  | 21 => some .loadOuterSlot
  | 23 => some .loadSlot
  | 27 => some .enter
  | 28 => some .leave
  | 34 => some .loadGlobal
  | 36 => some .storeGlobal
  | 38 => some .storeSlot
  | 60 => some .add
  | 61 => some .sub
  | 62 => some .mul
  | 63 => some .div
  | _ => none

/-- The name of a code. -/
def name (op : Opcode) : String := names.get op.number

/-- The number of operands; a reserved code takes none. -/
def arity (op : Opcode) : Nat := op.operation?.elim 0 Operation.arity

/-- Whether the machine can run the code. -/
def isImplemented (op : Opcode) : Bool := op.operation?.isSome

/-- The code as a word. -/
def word (op : Opcode) : Int := op.number.val

/-- The code that a word stands for. -/
def ofWord? (w : Int) : Option Opcode :=
  if h : 0 ≤ w ∧ w.toNat < count then some ⟨⟨w.toNat, h.2⟩⟩ else none

/-- The code of a name. -/
def ofName? (name : String) : Option Opcode :=
  (List.finRange count).find? (fun i => names.get i == name) |>.map Opcode.mk

end Opcode

end BlockScript
