import JvmClass.Code.Cursor

/-!
# Constructor calls

The body of a constructor calls another constructor on the object under
construction: one of the superclass, or one of the same class. Other calls of
constructors belong to objects that the body creates itself, and every one of
them follows its creation. So the call that is looked for is the first one that
no creation is left for.
-/

namespace JvmClass

/-- The name of constructors. -/
def constructorName : String := "<init>"

/-- The name of static initializers. -/
def staticInitializerName : String := "<clinit>"

/-- Which constructor a search accepts. -/
inductive ConstructorTarget where
  /-- Any. -/
  | any
  /-- One of another class than the owner of the pool. -/
  | superclass
  /-- One of the owner of the pool. -/
  | this
  deriving DecidableEq, Repr

/-- Whether a search accepts the constructor of a class. -/
def ConstructorTarget.accepts (target : ConstructorTarget) (owner? : Option String)
    (className : String) : Bool :=
  match target with
  | .any => true
  | .this => owner? = some className
  | .superclass => owner? ≠ some className

/-- Search from a position for the call of another constructor, with `created`
objects that no constructor was called for yet. The result is the position of
the call, and the place where the search ends: behind the call, at the start if
there is none, and wherever an error was met. -/
def Bytecode.searchConstructor (code : Bytecode) (pool : ConstantPool) (owner? : Option String)
    (target : ConstructorTarget) (position created : Nat) : Except Error (Option Nat) × Nat :=
  if h : position < code.size then
    match hl : code.instructionLength position with
    | .error e => (.error e, position)
    | .ok length =>
      if code[position] = Opcode.new then
        code.searchConstructor pool owner? target (position + length) (created + 1)
      else if code[position] = Opcode.invokeSpecial then
        match pool.member ((code.u16At? (position + 1)).getD 0) with
        | .error e => (.error e, position + length)
        | .ok m =>
          if m.name ≠ constructorName then
            code.searchConstructor pool owner? target (position + length) created
          else
            match created with
            | created + 1 =>
              code.searchConstructor pool owner? target (position + length) created
            | 0 =>
              if target.accepts owner? m.className then (.ok (some position), position + length)
              else (.ok none, 0)
      else code.searchConstructor pool owner? target (position + length) created
  else (.ok none, 0)
termination_by code.size - position
decreasing_by all_goals
  have := Bytecode.one_le_instructionLength hl
  omega

/-- Move behind the call of another constructor and give its position. If there
is none, the cursor goes to the start. -/
def Cursor.skipConstructor (pool : ConstantPool) (target : ConstructorTarget) :
    Edit Cursor (Option Nat) := do
  let owner? ← match target with
    | .any => pure none
    | _ => some <$> (pool.ownerName : Except Error String)
  let cursor ← get
  let (found, position) :=
    Bytecode.searchConstructor cursor.code.bytes pool owner? target 0 0
  set { cursor with position }
  found

end JvmClass
