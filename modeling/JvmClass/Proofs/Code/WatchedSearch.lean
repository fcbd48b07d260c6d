import JvmClass.Proofs.Code.ConstructorSearch
import JvmClass.Proofs.Instruction.Watched

/-!
# Watched searches for constructors

The search for the call of another constructor, watched in every place where it would crash
if the code were not what it takes it for. It does not crash, whatever the code.
-/

namespace JvmClass

open Watched (ofEdit ofStep demand crash)

/-- The position of the next instruction, which the cursor then passes. -/
def Cursor.watchedNext : Watched Cursor Nat := do
  let cursor ← get
  let length ← Bytecode.watchedLength cursor.code.bytes cursor.position
  set { cursor with position := cursor.position + length }
  pure cursor.position

/-- The next instruction is passed without a crash. -/
theorem Cursor.watchedNext_eq : watchedNext = ofEdit next := by
  unfold watchedNext next
  refine Watched.bind_eq fun cursor => ?_
  rw [Bytecode.watchedLength_eq]
  exact Watched.bind_eq fun length => rfl

/-- Search for the call of another constructor, with `created` objects that no constructor
was called for yet, in at most so many steps. The objects are not counted beyond a limit. -/
def Cursor.watchedSearch (pool : ConstantPool) (owner? : Option String)
    (target : ConstructorTarget) (limit : Nat) :
    (steps created : Nat) → Watched Cursor (Option Nat)
  | 0, _ => crash
  | steps + 1, created => do
    let cursor ← get
    if cursor.hasNext then
      let position ← watchedNext
      let op ← demand cursor.code.bytes[position]?
      if op = Opcode.new then
        if created < limit then watchedSearch pool owner? target limit steps (created + 1)
        else crash
      else if op = Opcode.invokeSpecial then
        let index ← demand (Bytecode.u16At? cursor.code.bytes (position + 1))
        let m ← ofStep (pool.member index)
        if m.name ≠ constructorName then watchedSearch pool owner? target limit steps created
        else
          match created with
          | created + 1 => watchedSearch pool owner? target limit steps created
          | 0 =>
            if target.accepts owner? m.className then pure (some position)
            else
              set { cursor with position := 0 }
              pure none
      else watchedSearch pool owner? target limit steps created
    else
      set { cursor with position := 0 }
      pure none

/-- Move behind the call of another constructor and give its position. -/
def Cursor.watchedSkip (pool : ConstantPool) (target : ConstructorTarget) (limit : Nat) :
    Watched Cursor (Option Nat) := do
  let owner? ← match target with
    | .any => pure none
    | _ => some <$> (ofStep pool.ownerName : Watched Cursor String)
  let cursor ← get
  set { cursor with position := 0 }
  watchedSearch pool owner? target limit (cursor.code.bytes.size + 1) 0

/-- A creation takes three bytes. -/
theorem Bytecode.instructionLength_of_new {code : Bytecode} {p n : Nat}
    (hop : code[p]? = some Opcode.new) (hl : code.instructionLength p = .ok n) : n = 3 := by
  obtain ⟨op, hop', hclaimed⟩ := (instructionLength_eq_ok_iff.mp hl).1.claimedLength
  cases hop.symm.trans hop'
  cases hclaimed
  rfl

/-- The constructor call is searched without a crash. Each creation takes three bytes, so
that they are not more than the limit if the code is not longer than three times that. -/
theorem Cursor.watchedSearch_eq (pool : ConstantPool) (owner? : Option String)
    (target : ConstructorTarget) {limit steps created position : Nat} {code : Code}
    (hsteps : code.bytes.size - position < steps)
    (hlimit : 3 * created + (code.bytes.size - position) ≤ 3 * limit) :
    watchedSearch pool owner? target limit steps created ⟨code, position⟩ =
      some ((Bytecode.searchConstructor code.bytes pool owner? target position created).1,
        ⟨code, (Bytecode.searchConstructor code.bytes pool owner? target position created).2⟩) := by
  induction steps generalizing created position with
  | zero => cases hsteps
  | succ steps ih =>
    have hget (cursor : Cursor) :
        (get : Watched Cursor Cursor) cursor = some (.ok cursor, cursor) := rfl
    rw [watchedSearch, Bytecode.searchConstructor_eq, Watched.bind_apply, hget]
    dsimp only
    by_cases hp : position < code.bytes.size
    · have hnext : (Cursor.mk code position).hasNext = true := decide_eq_true hp
      have hop : code.bytes[position]? = some code.bytes[position] := Array.getElem?_eq_getElem hp
      have hpass : ofEdit next ⟨code, position⟩ = some (next.runOn ⟨code, position⟩) := rfl
      rw [if_pos hnext, if_pos hp, watchedNext_eq, Watched.bind_apply, hpass, runOn_next]
      dsimp only
      cases hl : Bytecode.instructionLength code.bytes position with
      | error e => rfl
      | ok n =>
        have hone := Bytecode.one_le_instructionLength hl
        have hend := Bytecode.add_instructionLength_le hl
        dsimp only
        rw [hop, Watched.demand_some_bind]
        simp only [Option.some.injEq]
        by_cases hnew : code.bytes[position] = Opcode.new
        · have hthree : n = 3 := Bytecode.instructionLength_of_new (hnew ▸ hop) hl
          rw [if_pos hnew, if_pos hnew, if_pos (show created < limit by omega)]
          exact ih (by omega) (by omega)
        rw [if_neg hnew, if_neg hnew]
        by_cases hcall : code.bytes[position] = Opcode.invokeSpecial
        · obtain ⟨index, hindex⟩ := Bytecode.exists_u16At?_of_invokeSpecial (hcall ▸ hop) hl
          rw [if_pos hcall, if_pos hcall, hindex, Watched.demand_some_bind, Option.getD_some]
          cases hmember : pool.member index with
          | error e => rfl
          | ok m =>
            show (if m.name ≠ constructorName then _ else _ : Watched Cursor (Option Nat)) _ = _
            dsimp only
            by_cases hname : m.name ≠ constructorName
            · rw [if_pos hname, if_pos hname]
              exact ih (by omega) (by omega)
            · rw [if_neg hname, if_neg hname]
              cases created with
              | succ created => exact ih (by omega) (by omega)
              | zero =>
                dsimp only
                split <;> rfl
        · rw [if_neg hcall, if_neg hcall]
          exact ih (by omega) (by omega)
    · have hnext : ¬ (Cursor.mk code position).hasNext = true := fun h => hp (of_decide_eq_true h)
      rw [if_neg hnext, if_neg hp]
      rfl

/-- The call of another constructor is skipped without a crash. -/
theorem Cursor.watchedSkip_eq (pool : ConstantPool) (target : ConstructorTarget) {limit : Nat}
    {cursor : Cursor} (hlimit : cursor.code.bytes.size ≤ 3 * limit) :
    watchedSkip pool target limit cursor = ofEdit (skipConstructor pool target) cursor := by
  have hsearch (owner? : Option String) :
      watchedSearch pool owner? target limit (cursor.code.bytes.size + 1) 0 ⟨cursor.code, 0⟩ = _ :=
    watchedSearch_eq pool owner? target (Nat.lt_succ_self _) (by omega)
  -- the search is all there is once the owner of the pool is known
  have hrun : ofEdit (skipConstructor pool target) cursor =
      some ((skipConstructor pool target).runOn cursor) := rfl
  rw [hrun]
  cases target with
  | any => exact hsearch none
  | superclass | this =>
    unfold watchedSkip skipConstructor
    cases pool.ownerName with
    | error e => rfl
    | ok owner => exact hsearch (some owner)

end JvmClass
