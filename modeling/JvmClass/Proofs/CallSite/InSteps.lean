import JvmClass.Proofs.CallSite.Replaced
import JvmClass.Proofs.Code.InSteps

/-!
# Replacement step by step

A replacement reads the call and the class, runs a compiler, and edits a body in
many steps, of which most can fail. Here it is spelled out as a sequence of
steps on one state, which holds the class, the call, the state of the compiler
and a working copy of the body, and in which every step stays done if a later
one fails. Only the last two steps touch the class and the call, and they cannot
fail.
-/

namespace JvmClass

/-! ## Edits of parts -/

namespace Edit

variable {σ τ α : Type}

/-- An edit of the first part of a state. -/
def onFirst (edit : Edit σ α) : Edit (σ × τ) α := ExceptT.mk fun (state, rest) =>
  let (outcome, state) := edit.runOn state
  (outcome, state, rest)

/-- An edit of the second part of a state. -/
def onSecond (edit : Edit τ α) : Edit (σ × τ) α := ExceptT.mk fun (rest, state) =>
  let (outcome, state) := edit.runOn state
  (outcome, rest, state)

/-- The second part stays as it is. -/
@[simp]
theorem runOn_onFirst (edit : Edit σ α) (state : σ) (rest : τ) :
    edit.onFirst.runOn (state, rest) =
      ((edit.runOn state).1, (edit.runOn state).2, rest) := rfl

/-- The first part stays as it is. -/
@[simp]
theorem runOn_onSecond (edit : Edit τ α) (rest : σ) (state : τ) :
    edit.onSecond.runOn (rest, state) =
      ((edit.runOn state).1, rest, (edit.runOn state).2) := rfl

end Edit

/-! ## Edits of a working copy -/

namespace Cursor

variable {α β : Type} {edit : Edit Cursor α} {make : Code → Except Error (Code × α)}

/-- An edit through a cursor makes of a body what a function makes of it. If it fails,
there is no telling what it leaves. -/
def Makes (edit : Edit Cursor α) (make : Code → Except Error (Code × α)) : Prop :=
  ∀ cursor,
    match make cursor.code with
    | .ok (code, a) => ∃ place, edit.runOn cursor = (.ok a, ⟨code, place⟩)
    | .error e => ∃ left, edit.runOn cursor = (.error e, left)

/-- Edits one after the other make what the functions make one after the other. -/
theorem Makes.bind {next : α → Edit Cursor β} {makeNext : α → Code → Except Error (Code × β)}
    (h : Makes edit make) (hnext : ∀ a, Makes (next a) (makeNext a)) :
    Makes (edit >>= next) fun code => make code >>= fun (code, a) => makeNext a code := by
  intro cursor
  have hrun := h cursor
  dsimp only
  cases hmake : make cursor.code with
  | error e =>
    rw [hmake] at hrun
    obtain ⟨left, hrun⟩ := hrun
    rw [Edit.runOn_bind, hrun, error_bind]
    exact ⟨left, rfl⟩
  | ok made =>
    obtain ⟨code, a⟩ := made
    rw [hmake] at hrun
    obtain ⟨place, hrun⟩ := hrun
    rw [Edit.runOn_bind, hrun, ok_bind]
    exact hnext a ⟨code, place⟩

/-- A value that is given at once. -/
theorem makes_pure (a : α) : Makes (pure a) fun code => .ok (code, a) :=
  fun cursor => ⟨cursor.position, rfl⟩

/-- A change of the body that may fail. -/
theorem makes_onCode (f : Code → Except Error Code) :
    Makes (onCode f) fun code => f code >>= fun code => .ok (code, ()) := by
  intro cursor
  dsimp only
  rw [runOn_onCode]
  cases f cursor.code with
  | error e => exact ⟨cursor, rfl⟩
  | ok code => exact ⟨cursor.position, rfl⟩

/-- A write that cannot fail. -/
theorem makes_change (f : Code → Code) : Makes (change f) fun code => .ok (f code, ()) :=
  fun cursor => ⟨cursor.position, rfl⟩

/-- A gap that is inserted by its steps. -/
theorem makes_insertGapInSteps (position length : Nat) (exclusive : Bool) :
    Makes (insertGapInSteps position length exclusive) fun code =>
      code.insertGap position length exclusive >>= fun (s, code) => .ok (code, s) := by
  intro cursor
  rw [insertGapInSteps_eq, runOn_insertGap]
  dsimp only
  cases cursor.code.insertGap position length exclusive with
  | error e => exact ⟨cursor, rfl⟩
  | ok inserted => exact ⟨_, rfl⟩

end Cursor

/-! ## The steps of a replacement -/

namespace CallSite

variable {σ : Type} (call : CallSite)

/-- All that a replacement reads before it does anything: the parameters and the
result of the call, the class around it, its body and the slots for the
statement. -/
def prepare (c : ClassFile) :
    Except Error (List Descriptor × Option Descriptor × String × Code × ReplacementSlots) := do
  let (parameters, result) ← signature (← call.descriptor c)
  let owner ← c.name
  let some code := c.codeAt? call.method | throw (.malformed .codeRemoved)
  let slots := ReplacementSlots.allot code.maxLocals.toNat parameters result
  if 65535 < slots.stop then throw (.overflow .maxLocals)
  pure (parameters, result, owner, code, slots)

section Copy

variable (parameters : List Descriptor) (result : Option Descriptor) (slots : ReplacementSlots)
  (compiled : CompiledStatement)

/-- The operand stack of a body raised by what a statement needs. -/
def raiseStack (code : Code) : Except Error Code :=
  let needed := max compiled.maxStack 1
  if 65535 < code.maxStack.toNat + needed.toNat then .error (.overflow .maxStack)
  else .ok { code with maxStack := code.maxStack + needed }

/-- The local variables of a body raised to what a statement needs. -/
def raiseLocals (code : Code) : Code :=
  { code with maxLocals := max (max code.maxLocals compiled.maxLocals) (UInt16.ofNat slots.stop) }

/-- Edit a working copy of the body, one step after the other, and give the length of
the code that takes the place of the call. -/
def editCopy : Edit Cursor Nat := do
  let prologue := slots.prologue parameters
  let body := prologue ++ compiled.code ++ slots.epilogue result
  Cursor.write call.position (List.replicate 5 Opcode.nop)
  let _ ← Cursor.insertGapInSteps call.position (body.length - 5) false
  Cursor.write call.position body
  Cursor.insertHandlers compiled.handlers (call.position + prologue.length)
  Cursor.change (raiseLocals slots compiled)
  Cursor.onCode (raiseStack compiled)
  pure body.length

/-- The steps on a working copy make the new body. -/
theorem makes_editCopy :
    Cursor.Makes (call.editCopy parameters result slots compiled) fun code =>
      call.replacedCode code parameters result slots compiled := by
  have hsteps : Cursor.Makes (call.editCopy parameters result slots compiled) _ :=
    (Cursor.makes_onCode _).bind fun _ => (Cursor.makes_insertGapInSteps _ _ _).bind fun _ =>
      (Cursor.makes_onCode _).bind fun _ => (Cursor.makes_onCode _).bind fun _ =>
        (Cursor.makes_change _).bind fun _ => (Cursor.makes_onCode _).bind fun _ =>
          Cursor.makes_pure _
  -- the new body is made by the same functions, grouped differently
  convert hsteps using 2 with code
  unfold replacedCode splice raiseStack raiseLocals
  simp only [bind_assoc, ok_bind]
  refine bind_congr fun blanked => bind_congr fun opened => bind_congr fun written =>
    bind_congr fun edited => ?_
  split <;> rfl

end Copy

/-- Replace the call, one step after the other. -/
def replaceInSteps (compiler : StatementCompiler σ) (statement : String) :
    Edit (Cursor × σ × CallSite × ClassFile) Unit := do
  let (_, _, call, c) ← get
  let (parameters, result, owner, code, slots) ← (call.prepare c : Except Error _)
  let compiled ← Edit.onSecond <| Edit.onFirst <|
    call.compileStatement compiler statement c.pool code owner parameters result slots
  Edit.onFirst (set (Cursor.ofCode code))
  let length ← Edit.onFirst (call.editCopy parameters result slots compiled)
  modify fun (copy, state, call, c) => (copy, state, call, c.withCodeAt call.method copy.code)
  modify fun (copy, state, call, c) =>
    (copy, state, { call with stop := call.position + max length 5 }, c)

variable {call : CallSite} {c : ClassFile} (compiler : StatementCompiler σ) (statement : String)

/-- A replacement reads, has the statement compiled, makes the new body, and then puts it
into the class. -/
theorem runOn_replace (state : σ) :
    (replace compiler statement).runOn (state, call, c) =
      match call.prepare c with
      | .error e => (.error e, state, call, c)
      | .ok (parameters, result, owner, code, slots) =>
        match (call.compileStatement compiler statement c.pool code owner parameters result
            slots).runOn state with
        | (.error e, state) => (.error e, state, call, c)
        | (.ok compiled, state) =>
          match call.replacedCode code parameters result slots compiled with
          | .error e => (.error e, state, call, c)
          | .ok (edited, length) =>
            (.ok (), state, { call with stop := call.position + max length 5 },
              c.withCodeAt call.method edited) := rfl

/-- But for the working copy, the steps of a replacement leave what it leaves. -/
theorem runOn_replaceInSteps (copy : Cursor) (start : σ × CallSite × ClassFile) :
    Prod.map id Prod.snd ((replaceInSteps compiler statement).runOn (copy, start)) =
      (replace compiler statement).runOn start := by
  obtain ⟨state, call, c⟩ := start
  rw [runOn_replace]
  unfold replaceInSteps
  simp only [Edit.runOn_bind, Edit.runOn_get, Edit.runOn_lift]
  cases call.prepare c with
  | error e => rfl
  | ok prepared =>
    obtain ⟨parameters, result, owner, code, slots⟩ := prepared
    simp only [Edit.runOn_onSecond, Edit.runOn_onFirst]
    rcases (call.compileStatement compiler statement c.pool code owner parameters result
      slots).runOn state with ⟨outcome, after⟩
    cases outcome with
    | error e => rfl
    | ok compiled =>
      have hcopy := call.makes_editCopy parameters result slots compiled (.ofCode code)
      have hcode : (Cursor.ofCode code).code = code := rfl
      dsimp only at hcopy
      rw [hcode] at hcopy
      simp only [Edit.runOn_onFirst, Edit.runOn_set, Edit.runOn_modify]
      cases hnew : call.replacedCode code parameters result slots compiled with
      | error e =>
        -- what the copy has become is all that is left of the steps
        rw [hnew] at hcopy
        obtain ⟨left, hcopy⟩ := hcopy
        rw [hcopy]
        rfl
      | ok made =>
        rw [hnew] at hcopy
        obtain ⟨place, hcopy⟩ := hcopy
        rw [hcopy]
        rfl

/-- A replacement that fails, for whatever reason and whatever the compiler does, leaves
the class and the call as they were. That is so although it edits in many steps: left
alone, the steps leave the same, but for a working copy that is thrown away. -/
theorem replace_allOrNothing (compiler : StatementCompiler σ) (statement : String) :
    (replace compiler statement).AllOrNothing Prod.snd ∧
      ∀ copy start,
        Prod.map id Prod.snd ((replaceInSteps compiler statement).runOn (copy, start)) =
          (replace compiler statement).runOn start := by
  refine ⟨?_, runOn_replaceInSteps compiler statement⟩
  rintro ⟨state, call, c⟩ e ⟨after, call', c'⟩ h
  obtain ⟨rfl, rfl⟩ := eq_of_replace_eq_error h
  rfl

/-- A statement whose handler would end up behind all code. -/
def farHandler : CompiledStatement :=
  { firstArgument with handlers := [⟨0, 1, 65535, 0⟩] }

/-- The handler is refused when the code of the statement is already in the working
copy. The class still has the call. -/
theorem replace_allOrNothing_farHandler :
    ∃ left, (replaceInSteps (constantCompiler farHandler) "$_ = $1;").runOn
        (.ofCode retryCode, (), retryCall, retryClass) =
          (.error (.overflow .handlerPosition), left) ∧
      left.1.code.bytes.size = 15 ∧ left.2.2 = (retryCall, retryClass) := by
  obtain ⟨hleaves, hsteps⟩ := replace_allOrNothing (constantCompiler farHandler) "$_ = $1;"
  have hfails : ((replaceInSteps (constantCompiler farHandler) "$_ = $1;").runOn
      (.ofCode retryCode, (), retryCall, retryClass)).1 =
        .error (.overflow .handlerPosition) := by decide +kernel
  have hrun := Edit.runOn_eq_of_fst _ hfails
  have hsame := hsteps (.ofCode retryCode) ((), retryCall, retryClass)
  rw [hrun] at hsame
  exact ⟨_, hrun, by decide +kernel, hleaves _ _ _ hsame.symm⟩

end CallSite

end JvmClass
