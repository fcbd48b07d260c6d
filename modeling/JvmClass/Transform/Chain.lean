import JvmClass.ClassFile
import JvmClass.Transform.Stage

/-!
# Chains of stages

A chain takes every instruction of a body through its stages in order. Code
that a stage inserts before the instruction is not visited; the next stage goes
on with the instruction where it now is. When a stage fails, what has been
changed before stays changed.
-/

namespace JvmClass

/-- An ordered list of stages. -/
abbrev Chain (τ : Type) := List τ

namespace Chain

variable {τ : Type} [Stage τ]

/-- Take the instruction at a position through stages in order. `done` holds
the stages before them, last first. -/
def visitAt (hierarchy : TypeHierarchy) (position : Nat) (done : List τ) :
    List τ → Workbench → Except Error Nat × Chain τ × Workbench
  | [], bench => (.ok position, done.reverse, bench)
  | stage :: stages, bench =>
    match (Stage.visit hierarchy position).runOn (stage, bench) with
    | (.ok position, stage, bench) => visitAt hierarchy position (stage :: done) stages bench
    | (.error e, stage, bench) => (.error e, done.reverse ++ stage :: stages, bench)

/-- Take the remaining instructions of a body through all stages, in at most so
many steps. -/
def walk (hierarchy : TypeHierarchy) :
    (steps : Nat) → Chain τ → Workbench → Except Error Unit × Chain τ × Workbench
  | 0, stages, bench => (.ok (), stages, bench)
  | steps + 1, stages, ⟨pool, cursor⟩ =>
    if cursor.hasNext then
      match Cursor.next.runOn cursor with
      | (.error e, cursor) => (.error e, stages, ⟨pool, cursor⟩)
      | (.ok position, cursor) =>
        match visitAt hierarchy position [] stages ⟨pool, cursor⟩ with
        | (.error e, stages, bench) => (.error e, stages, bench)
        | (.ok _, stages, bench) => walk hierarchy steps stages bench
    else (.ok (), stages, ⟨pool, cursor⟩)

/-- Steps that are enough for a walk that never goes back: a body grows up to
65535 bytes, if it is not longer already. -/
def stepsFor (code : Code) : Nat := max 65535 code.bytes.size + 1

/-- The sum of two numbers, if it fits a field. -/
def addLimited (limit : Limit) (a b : UInt16) : Except Error UInt16 :=
  if a.toNat + b.toNat ≤ 65535 then .ok (a + b) else .error (.overflow limit)

/-- Give a body the local variables and the operand stack that the stages need
for themselves. -/
def reserve (stages : Chain τ) : Edit Code Unit := do
  let locals := (stages.map Stage.extraLocals).foldl max 0
  let stack := (stages.map Stage.extraStack).foldl max 0
  let maxLocals ← addLimited .maxLocals (← get).maxLocals locals
  modify fun code => { code with maxLocals }
  let maxStack ← addLimited .maxStack (← get).maxStack stack
  modify fun code => { code with maxStack }

/-- Run the chain over a body. -/
def applyToCode (hierarchy : TypeHierarchy) : Edit (Chain τ × ConstantPool × Code) Unit :=
  ExceptT.mk fun (stages, pool, code) =>
    let stages := stages.map (Stage.reset pool code)
    match walk hierarchy (stepsFor code) stages ⟨pool, .ofCode code⟩ with
    | (.error e, stages, ⟨pool, cursor⟩) => (.error e, stages, pool, cursor.code)
    | (.ok (), stages, ⟨pool, cursor⟩) =>
      let stages := stages.map Stage.clean
      let (outcome, code) := (reserve stages).runOn cursor.code
      (outcome, stages, pool, code)

/-- Run the chain over the body of a method. The answer is whether it has
one. -/
def applyToMethod (hierarchy : TypeHierarchy) : Edit (Chain τ × ConstantPool × Method) Bool :=
  ExceptT.mk fun (stages, pool, m) =>
    match m.code? with
    | none => (.ok false, stages, pool, m)
    | some code =>
      let (outcome, stages, pool, code) := (applyToCode hierarchy).runOn (stages, pool, code)
      (outcome.map fun _ => true, stages, pool, m.withCode code)

/-- Run the chain over methods in order. `done` holds the methods before them,
last first. -/
def applyToMethods (hierarchy : TypeHierarchy) (done : List Method) :
    List Method → Chain τ → ConstantPool → Except Error Unit × Chain τ × ConstantPool × List Method
  | [], stages, pool => (.ok (), stages, pool, done.reverse)
  | m :: methods, stages, pool =>
    match (applyToMethod hierarchy).runOn (stages, pool, m) with
    | (.ok _, stages, pool, m) => applyToMethods hierarchy (m :: done) methods stages pool
    | (.error e, stages, pool, m) => (.error e, stages, pool, done.reverse ++ m :: methods)

/-- Run the chain over every method of a class. A chain without stages does
nothing. -/
def applyToClass (hierarchy : TypeHierarchy) : Edit (Chain τ × ClassFile) Unit :=
  ExceptT.mk fun (stages, c) =>
    if stages.isEmpty then (.ok (), stages, c)
    else
      let (outcome, stages, pool, methods) :=
        applyToMethods hierarchy [] c.methods stages c.pool
      (outcome, stages, { c with pool, methods })

end Chain

end JvmClass
