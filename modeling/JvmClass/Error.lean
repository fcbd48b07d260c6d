import JvmClass.Text.ModifiedUtf8
import JvmClass.Constant.Kind
import JvmClass.Invocation

/-!
# Errors

Every way in which an operation of this library can fail, by cause, and the
text that describes it.
-/

namespace JvmClass

/-- Why a statement could not be compiled. -/
inductive CompileError where
  /-- The statement is wrong. -/
  | compile (reason : String)
  /-- The statement names something that does not exist. -/
  | notFound (name : String)
  deriving DecidableEq, Repr

/-- The text of a compile error. -/
def CompileError.message : CompileError → String
  | .compile reason => reason
  | .notFound name => "cannot find " ++ name

/-- What a class file bounds by the width of a field. -/
inductive Limit where
  /-- The bytes of a text. -/
  | stringLength
  /-- The entries of a table. -/
  | tableLength
  /-- The attributes of one owner. -/
  | attributeCount
  /-- The bytes of an attribute. -/
  | attributeLength
  /-- The bytes of a method body. -/
  | codeLength
  /-- The fields of a class. -/
  | fieldCount
  /-- The methods of a class. -/
  | methodCount
  /-- The slots of a constant pool. -/
  | constantPool
  /-- The distance of a branch. -/
  | branchOffset
  /-- The local variable slots of a body. -/
  | maxLocals
  /-- The operand stack of a body. -/
  | maxStack
  /-- A position in an exception table. -/
  | handlerPosition
  deriving DecidableEq, Repr

/-- The name of a limit in messages. -/
def Limit.label : Limit → String
  | .stringLength => "string length"
  | .tableLength => "table length"
  | .attributeCount => "attribute count"
  | .attributeLength => "attribute length"
  | .codeLength => "code length"
  | .fieldCount => "field count"
  | .methodCount => "method count"
  | .constantPool => "constant pool"
  | .branchOffset => "branch offset"
  | .maxLocals => "max locals"
  | .maxStack => "max stack"
  | .handlerPosition => "exception table pc"

/-- A value that has no meaning where it stands. -/
inductive Malformed where
  /-- A tag byte that introduces nothing. -/
  | tag (found : Nat)
  /-- The first four bytes of a file that is no class file. -/
  | magic (found : UInt32)
  /-- A constant pool that does not even count its unused first slot. -/
  | zeroPoolCount
  /-- A wide entry in the last slot of a pool. -/
  | wideEntry (index count : Nat)
  /-- An index that holds no entry. -/
  | poolIndex (index : UInt16)
  /-- A text that is no descriptor. -/
  | descriptor (text : String)
  /-- A method handle whose member does not suit its kind. -/
  | methodHandle (index : UInt16) (kind : HandleKind) (member : MemberKind) (reference : UInt16)
  /-- An attribute of no recognized kind that was given no name. -/
  | unnamedAttribute
  /-- A frame type that is reserved. -/
  | frameType (found : UInt8)
  /-- A position outside the code. -/
  | codeIndex (position : Nat)
  /-- A switch whose operand at this position is cut short. -/
  | truncatedSwitch (position : Nat)
  /-- A table switch with reversed bounds. -/
  | tableSwitch (low high : Int)
  /-- A lookup switch that counts its pairs below zero. -/
  | lookupSwitch
  /-- A byte that is no opcode. -/
  | opcode (found : UInt8) (position : Nat)
  /-- An instruction whose operands run past the end of the code. -/
  | instruction (opcode : UInt8) (position : Nat)
  /-- A gap outside the code. -/
  | gapPosition (position : Nat)
  /-- A method without a body. -/
  | methodWithoutCode (method : Nat)
  /-- A method that lost its body. -/
  | codeRemoved
  /-- A position at which no dynamic call starts. -/
  | callSite (position : Nat)
  /-- A call site whose descriptor is not that of a method. -/
  | callSiteDescriptor (text : String)
  /-- A position outside the table of bootstrap methods. -/
  | bootstrapIndex (index : UInt16) (count : Nat)
  deriving DecidableEq

/-- One hexadecimal digit. -/
def hexDigit (upper : Bool) (n : Nat) : Char :=
  if n < 10 then Char.ofNat (48 + n) else Char.ofNat ((if upper then 55 else 87) + n)

/-- The last `width` hexadecimal digits of a number. -/
def hexDigits (upper : Bool) : (width : Nat) → Nat → List Char
  | 0, _ => []
  | width + 1, n => hexDigits upper width (n / 16) ++ [hexDigit upper (n % 16)]

/-- A byte as `0x` and two lower-case digits. -/
def hexByte (b : UInt8) : String := "0x" ++ String.ofList (hexDigits false 2 b.toNat)

/-- A word as `0x` and eight upper-case digits. -/
def hexWord (w : UInt32) : String := "0x" ++ String.ofList (hexDigits true 8 w.toNat)

/-- What a malformed value was meant to be. -/
def Malformed.subject : Malformed → String
  | .tag _ => "tag"
  | .magic _ => "magic"
  | .zeroPoolCount => "constant pool count"
  | .wideEntry .. => "constant pool"
  | .poolIndex _ => "constant pool index"
  | .descriptor _ => "descriptor"
  | .methodHandle .. => "method handle"
  | .unnamedAttribute => "attribute"
  | .frameType _ => "stack map frame type"
  | .codeIndex _ => "code index"
  | .truncatedSwitch _ => "instruction"
  | .tableSwitch .. => "tableswitch"
  | .lookupSwitch => "lookupswitch"
  | .opcode .. => "opcode"
  | .instruction .. => "instruction"
  | .gapPosition _ => "gap position"
  | .methodWithoutCode _ => "method"
  | .codeRemoved => "method"
  | .callSite _ => "call site"
  | .callSiteDescriptor _ => "call site descriptor"
  | .bootstrapIndex .. => "bootstrap method index"

/-- The malformed value, or what is wrong with it. -/
def Malformed.detail : Malformed → String
  | .tag found => s!"{found}"
  | .magic found => hexWord found
  | .zeroPoolCount => "0"
  | .wideEntry index count => s!"wide entry #{index} exceeds the pool count {count}"
  | .poolIndex index => s!"{index.toNat}"
  | .descriptor text => text
  | .methodHandle index kind member reference =>
    s!"#{index.toNat} of kind {kind.label} refers to {member.label} #{reference.toNat}"
  | .unnamedAttribute => "raw attributes need a name"
  | .frameType found => s!"{found.toNat}"
  | .codeIndex position => s!"{position}"
  | .truncatedSwitch position => s!"truncated switch at {position}"
  | .tableSwitch low high => s!"low {low} > high {high}"
  | .lookupSwitch => "negative pair count"
  | .opcode found position => s!"{hexByte found} at {position}"
  | .instruction op position =>
    s!"{hexByte op} at {position} runs past the end of the code"
  | .gapPosition position => s!"{position}"
  | .methodWithoutCode method => s!"#{method} has no code"
  | .codeRemoved => "code attribute removed"
  | .callSite position => s!"no invokedynamic at {position}"
  | .callSiteDescriptor text => text
  | .bootstrapIndex index count => s!"{index.toNat} of {count}"

/-- What an operation looked for in a constant pool. -/
inductive Expected where
  /-- An entry of one kind. -/
  | kind (kind : ConstantKind)
  /-- A field or method of either sort. -/
  | memberReference
  /-- A constant that a bootstrap method may receive. -/
  | loadable
  deriving DecidableEq

/-- The name of what was looked for in messages. -/
def Expected.label : Expected → String
  | .kind k => k.label
  | .memberReference => "member reference"
  | .loadable => "loadable constant"

/-- Why an operation failed. -/
inductive Error where
  /-- The input ends within a number. -/
  | truncatedNumber
  /-- The input ends within a run of bytes. -/
  | truncatedBytes (expected found : Nat)
  /-- A value that has no meaning where it stands. -/
  | malformed (what : Malformed)
  /-- Bytes that are not modified UTF-8. -/
  | text (fault : ModifiedUtf8.Fault)
  /-- An attribute that does not use all of its declared length. -/
  | attributeLength (declared consumed : Nat) (name : String)
  /-- A constant pool entry of another kind than the operation needs. -/
  | mismatch (index : UInt16) (expected : Expected) (found : ConstantKind)
  /-- A number that is no method handle kind. -/
  | unknownHandleKind (found : UInt8)
  /-- A dynamic call site in a class without bootstrap methods. -/
  | missingBootstrapMethods
  /-- A result that does not fit its field. -/
  | overflow (limit : Limit)
  /-- A statement that could not be compiled. -/
  | cannotCompile (error : CompileError)
  /-- A reflective call that did not return. -/
  | cannotInvoke (error : InvocationError)
  deriving DecidableEq

namespace Error

/-- The text that describes an error. -/
def message : Error → String
  | .truncatedNumber => "failed to fill whole buffer"
  | .truncatedBytes expected found => s!"expected {expected} bytes, got {found}"
  | .malformed what => s!"Invalid {what.subject}: {what.detail}"
  | .text fault => fault.message
  | .attributeLength declared consumed name =>
    s!"Attribute length mismatch in {name}: declared {declared} bytes " ++
      s!"but {consumed} bytes were consumed"
  | .mismatch index expected found =>
    s!"Constant pool entry #{index.toNat} is {found.label}, expected {expected.label}"
  | .unknownHandleKind found => s!"Unknown method handle reference kind: {found.toNat}"
  | .missingBootstrapMethods => "dynamic call site without bootstrap table"
  | .overflow limit => s!"{limit.label} overflows"
  | .cannotCompile error => s!"Cannot compile: {error.message}"
  | .cannotInvoke error => error.message

/-- Whether the cause lies in the data of a class file. -/
def isFormatError : Error → Bool
  | .cannotCompile _ | .cannotInvoke _ => false
  | _ => true

end Error

/-- A step on a state of type `σ` that may fail. What it did to the state
before it failed stays done. -/
abbrev Edit (σ : Type) := ExceptT Error (StateM σ)

/-- Run an edit: its outcome, and the state it leaves behind either way. -/
def Edit.runOn {σ α : Type} (edit : Edit σ α) (state : σ) : Except Error α × σ :=
  edit.run state

end JvmClass
