import JvmClass.CallSite.Basic
import JvmClass.CallSite.Compiler

/-!
# Replacing dynamic calls

A dynamic call can be replaced by a statement. The statement finds the
arguments of the call in fresh local variables, `$1`, `$2` and so on, null in
`$0`, and leaves the result of the call, if there is one, in `$_`. The code
that replaces the call moves the arguments from the stack into their slots,
runs the statement, and loads the result. A replacement that fails leaves the
class and the call as they were.
-/

namespace JvmClass

/-- The fresh slots of a replaced call. -/
structure ReplacementSlots where
  /-- The slot of `$0`. -/
  first : Nat
  /-- The slots of the arguments, in order. -/
  arguments : List Nat
  /-- The slot of `$_`. -/
  result : Nat
  /-- The first slot behind them all. -/
  stop : Nat
  deriving DecidableEq, Repr

namespace ReplacementSlots

/-- Values of these types in consecutive slots. -/
def consecutive (slot : Nat) : List Descriptor → List Nat
  | [] => []
  | d :: ds => slot :: consecutive (slot + d.slots) ds

/-- The slots that values of these types take. -/
def total : List Descriptor → Nat
  | [] => 0
  | d :: ds => d.slots + total ds

/-- The slots for a call with these parameters and this result, behind the
slots that are in use. -/
def allot (first : Nat) (parameters : List Descriptor) (result : Option Descriptor) :
    ReplacementSlots :=
  let behind := first + 1 + total parameters
  { first
    arguments := consecutive (first + 1) parameters
    result := behind
    stop := behind + (result.map Descriptor.slots).getD 0 }

/-- The code that moves the arguments of the call from the stack, where the
last one is on top, into their slots, and null into the slot of `$0`. -/
def prologue (slots : ReplacementSlots) (parameters : List Descriptor) : List UInt8 :=
  ((parameters.zip slots.arguments).reverse.flatMap fun (d, slot) =>
      d.store (UInt16.ofNat slot)) ++
    Opcode.aconstNull :: Family.reference.store (UInt16.ofNat slots.first)

/-- The code that loads the result, if there is one. -/
def epilogue (slots : ReplacementSlots) (result : Option Descriptor) : List UInt8 :=
  match result with
  | some d => d.load (UInt16.ofNat slots.result)
  | none => []

end ReplacementSlots

namespace CallSite

/-- The parameters and the result of a call with a descriptor. -/
def signature (descriptor : String) :
    Except Error (List Descriptor × Option Descriptor) := do
  let d ← Descriptor.parse descriptor
  match d.method? with
  | some signature => pure signature
  | none => throw (.malformed (.callSiteDescriptor d.text))

/-- Run a step of a compiler. -/
def runCompiler {σ α : Type} (step : ExceptT CompileError (StateM σ) α) : Edit σ α :=
  ExceptT.mk fun state =>
    match step.run state with
    | (.ok a, state) => (.ok a, state)
    | (.error e, state) => (.error (.cannotCompile e), state)

/-- Whether a statement mentions `$_`. -/
def mentionsResult : List Char → Bool
  | '$' :: '_' :: _ => true
  | _ :: rest => mentionsResult rest
  | [] => false

/-- Have a statement compiled for a call in a body. -/
def compileStatement {σ : Type} (call : CallSite) (compiler : StatementCompiler σ)
    (statement : String) (pool : ConstantPool) (code : Code) (owner : String)
    (parameters : List Descriptor) (result : Option Descriptor) (slots : ReplacementSlots) :
    Edit σ CompiledStatement := do
  runCompiler (compiler.recordParameters owner parameters true (UInt16.ofNat slots.first))
  runCompiler (compiler.recordResult result (UInt16.ofNat slots.result))
  compiler.recordProceed
    { result, bootstrapIndex := call.bootstrapIndex, callSiteIndex := call.callSiteIndex }
  if result.isSome && !mentionsResult statement.toList then
    throw (.cannotCompile (.compile "the resulting value is not stored in $_"))
  runCompiler (compiler.recordLocals pool code call.position)
  runCompiler (compiler.compile statement)

/-- Put code in place of the five bytes of the call. What it has more goes into
a gap behind them; what it has less is filled with instructions that do
nothing. -/
def splice (call : CallSite) (code : Code) (body : List UInt8) : Except Error Code := do
  let code ← code.write call.position (List.replicate 5 Opcode.nop)
  let (_, code) ← code.insertGap call.position (body.length - 5) false
  code.write call.position body

/-- The body in which a compiled statement takes the place of the call, and the
length of the code that does. -/
def replacedCode (call : CallSite) (code : Code) (parameters : List Descriptor)
    (result : Option Descriptor) (slots : ReplacementSlots) (compiled : CompiledStatement) :
    Except Error (Code × Nat) := do
  let prologue := slots.prologue parameters
  let body := prologue ++ compiled.code ++ slots.epilogue result
  let edited ← call.splice code body
  let edited ← edited.insertHandlers compiled.handlers (call.position + prologue.length)
  let needed := max compiled.maxStack 1
  if 65535 < edited.maxStack.toNat + needed.toNat then throw (.overflow .maxStack)
  pure
    ({ edited with
        maxLocals := max (max edited.maxLocals compiled.maxLocals) (UInt16.ofNat slots.stop)
        maxStack := edited.maxStack + needed },
      body.length)

/-- Replace the call by a statement. -/
def replace {σ : Type} (compiler : StatementCompiler σ) (statement : String) :
    Edit (σ × CallSite × ClassFile) Unit := ExceptT.mk fun (state, call, c) =>
  let prepared : Except Error _ := do
    let (parameters, result) ← signature (← call.descriptor c)
    let owner ← c.name
    let some code := c.codeAt? call.method | throw (.malformed .codeRemoved)
    let slots := ReplacementSlots.allot code.maxLocals.toNat parameters result
    if 65535 < slots.stop then throw (.overflow .maxLocals)
    pure (parameters, result, owner, code, slots)
  match prepared with
  | .error e => (.error e, state, call, c)
  | .ok (parameters, result, owner, code, slots) =>
    match (call.compileStatement compiler statement c.pool code owner parameters result
        slots).runOn state with
    | (.error e, state) => (.error e, state, call, c)
    | (.ok compiled, state) =>
      match call.replacedCode code parameters result slots compiled with
      | .error e => (.error e, state, call, c)
      | .ok (edited, length) =>
        (.ok (), state, { call with stop := call.position + max length 5 },
          { c with methods := c.methods.modify call.method fun m => m.withCode edited })

/-! ## All call sites of a class -/

/-- Visit a call, and give the position at which the search goes on. -/
def visitCall {σ : Type} (visit : Edit (σ × CallSite × ClassFile) Unit) (call : CallSite) :
    Edit (σ × ClassFile) Nat := ExceptT.mk fun (state, c) =>
  match visit.runOn (state, call, c) with
  | (.ok (), state, call, c) => (.ok call.stop, state, c)
  | (.error e, state, _, c) => (.error e, state, c)

/-- Visit the dynamic calls of a method from a position on, in at most so many
steps. -/
def visitMethod {σ : Type} (visit : Edit (σ × CallSite × ClassFile) Unit) (method : Nat) :
    (steps position : Nat) → Edit (σ × ClassFile) Unit
  | 0, _ => pure ()
  | steps + 1, position => do
    let (_, c) ← get
    let some code := c.codeAt? method | return
    let some found ← (Bytecode.nextDynamicCall? code.bytes position : Except Error _) | return
    let call ← ofInstruction c method found
    let position ← visitCall visit call
    visitMethod visit method steps position

/-- Steps that are enough for the dynamic calls of a method: every visit goes
on behind its call, and a body grows up to 65535 bytes, if it is not longer
already. -/
def visitSteps (c : ClassFile) (method : Nat) : Nat :=
  max 65535 (((c.codeAt? method).map fun code => code.bytes.size).getD 0) + 1

end CallSite

/-- Visit every dynamic call of a class, method by method and in the order of
the code. After a call was replaced, the search goes on behind the
replacement. -/
def ClassFile.editCallSites {σ : Type} (visit : Edit (σ × CallSite × ClassFile) Unit) :
    Edit (σ × ClassFile) Unit := do
  let (_, c) ← get
  (List.range c.methods.length).forM fun method => do
    let (_, c) ← get
    CallSite.visitMethod visit method (CallSite.visitSteps c method) 0

end JvmClass
