import JvmClass.Outline.Bytes

/-!
# Outlines of results

A result is shown under `ok`. A failure is shown by the group of its cause, its
text, and whether the cause lies in the data of a class file.
-/

namespace JvmClass

/-- The group of a cause. -/
def Error.label : Error → String
  | .truncatedNumber | .truncatedBytes .. => "IO"
  | .malformed _ => "Invalid"
  | .text _ => "MUTF"
  | .attributeLength .. => "AttributeLength"
  | .mismatch .. => "Mismatch"
  | .unknownHandleKind _ => "UnknownReferenceKind"
  | .missingBootstrapMethods => "MissingBootstrapMethods"
  | .overflow _ => "Overflow"
  | .cannotCompile _ => "CannotCompile"
  | .cannotInvoke _ => "CannotInvoke"

instance : Outlined Error := ⟨fun e =>
  let fields :=
    [("error", .text e.label), ("message", outlineText e.message),
      ("format", outline e.isFormatError)]
  match e with
  | .cannotCompile error => .record (fields ++ [("source", .text error.message)])
  | _ => .record fields⟩

instance {α : Type} [Outlined α] : Outlined (Except Error α) := ⟨fun
  | .ok a => .record [("ok", outline a)]
  | .error e => outline e⟩

instance : Outlined Unit := ⟨fun _ => .null⟩

/-- The word for how a reflective call failed. -/
def InvocationFailure.label : InvocationFailure → String
  | .targetException => "TargetException"
  | .illegalAccess => "IllegalAccess"
  | .classNotFound => "ClassNotFound"
  | .other => "Other"

instance : Outlined InvocationError := ⟨fun e => .record
  [("kind", .text e.failure.label), ("message", .text e.message), ("text", .text e.message),
    ("cause", outline e.cause?), ("chain", outline e.causes),
    ("as_error", outline (Error.cannotInvoke e))]⟩

end JvmClass
