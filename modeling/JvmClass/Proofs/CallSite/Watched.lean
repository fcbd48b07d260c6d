import JvmClass.Proofs.CallSite.Visits
import JvmClass.Proofs.Code.WatchedCopy
import JvmClass.Proofs.Code.WatchedSearch

/-!
# Watched searches for call sites

The search for dynamic calls and the pass over all call sites of a class, watched in every
place where they would crash. A pass ends whatever the visits do to the bodies, as long as
the search goes on behind the call that was visited and no body grows beyond its limit.
With gaps, copies and searches for constructors, no walk over code crashes.
-/

namespace JvmClass

open Watched (ofEdit ofStep demand crash)

variable {σ : Type}

/-! ## Dynamic calls -/

namespace Bytecode

/-- Search from a position for a dynamic call, in at most so many steps. -/
def watchedNextCall (code : Bytecode) : (steps position : Nat) → Watched σ (Option Nat)
  | 0, _ => crash
  | steps + 1, position =>
    if position < code.size then do
      let op ← demand code[position]?
      if op = Opcode.invokeDynamic then pure (some position)
      else
        let length ← code.watchedLength position
        watchedNextCall code steps (position + length)
    else pure none

/-- A dynamic call is searched without a crash. -/
theorem watchedNextCall_eq {code : Bytecode} {steps position : Nat}
    (hsteps : code.size - position < steps) :
    (code.watchedNextCall steps position : Watched σ (Option Nat)) =
      ofStep (code.nextDynamicCall? position) := by
  induction steps generalizing position with
  | zero => cases hsteps
  | succ steps ih =>
    rw [watchedNextCall, nextDynamicCall?]
    by_cases hp : position < code.size
    · have hop : code[position]? = some code[position] := Array.getElem?_eq_getElem hp
      rw [if_pos hp, dif_pos hp, hop, Watched.demand_some_bind]
      by_cases hcall : code[position] = Opcode.invokeDynamic
      · rw [if_pos hcall, if_pos hcall]
        rfl
      · rw [if_neg hcall, if_neg hcall, watchedLength_eq]
        split
        · next e hl =>
          rw [hl]
          rfl
        · next n hl =>
          have hone := one_le_instructionLength hl
          rw [hl]
          exact ih (by omega)
    · rw [if_neg hp, dif_neg hp]
      rfl

/-- A dynamic call is found where the search begins or behind. -/
theorem bounds_of_nextDynamicCall? {code : Bytecode} {position found : Nat}
    (h : code.nextDynamicCall? position = .ok (some found)) :
    position ≤ found ∧ found < code.size := by
  fun_induction nextDynamicCall? code position with
  | case1 position hp hcall =>
    cases h
    exact ⟨Nat.le_refl _, hp⟩
  | case2 position hp hcall e hl => cases h
  | case3 position hp hcall n hl ih =>
    obtain ⟨hle, hlt⟩ := ih h
    exact ⟨Nat.le_of_add_right_le hle, hlt⟩
  | case4 position hp => cases h

end Bytecode

/-! ## Visits -/

namespace CallSite

/-- What a visit may do to a call and to the class. -/
structure Onward (call : CallSite) (c : ClassFile) (call' : CallSite) (c' : ClassFile) : Prop where
  /-- The call stays where it is. -/
  position : call'.position = call.position
  /-- The search goes on behind it. -/
  stop : call.position < call.stop → call.position < call'.stop
  /-- No body grows beyond the length that bodies may have. -/
  size : ∀ method code', c'.codeAt? method = some code' → ∃ code, c.codeAt? method = some code ∧
    code'.bytes.size ≤ max 65535 code.bytes.size

/-- A visit after which the search can go on. -/
def Forward (visit : Edit (σ × CallSite × ClassFile) Unit) : Prop :=
  ∀ state call c state' call' c', visit.runOn (state, call, c) = (.ok (), state', call', c') →
    Onward call c call' c'

/-- Splicing does not make a body longer than it may be. -/
theorem size_le_of_splice {call : CallSite} {code new : Code} {body : List UInt8}
    (h : call.splice code body = .ok new) : new.bytes.size ≤ max 65535 code.bytes.size := by
  obtain ⟨blanked, hblanked, h⟩ := bind_eq_ok_iff.mp h
  obtain ⟨⟨s, opened⟩, hopened, hwritten⟩ := bind_eq_ok_iff.mp h
  obtain ⟨hroom, hblank⟩ := Code.write_eq_ok_iff.mp hblanked
  obtain ⟨-, hnew⟩ := Code.write_eq_ok_iff.mp hwritten
  have hsize : blanked.bytes.size = code.bytes.size := by
    rw [hblank]
    exact Code.size_blanked code call.position
  have hsize' : new.bytes.size = opened.bytes.size := by
    rw [hnew]
    exact Bytecode.size_overwrite opened.bytes call.position body
  rw [hsize']
  obtain ⟨-, ⟨-, rfl⟩ | ⟨-, hlimit, hmade⟩⟩ := Code.insertGap_cases hopened
  · exact hsize ▸ Nat.le_max_right ..
  · have hinside : call.position ≤ code.bytes.size := Nat.le_of_add_right_le hroom
    rw [Code.size_of_makeRoom (Nat.le_trans hinside (Nat.le_of_eq hsize.symm)) hmade]
    exact Nat.le_trans hlimit (Nat.le_max_left ..)

/-- Replacing a call by a statement is such a visit. -/
theorem forward_replace (compiler : StatementCompiler σ) (statement : String) :
    Forward (replace compiler statement) := by
  intro state call c state' call' c' h
  obtain ⟨r, performed, rfl⟩ := exists_performed h
  refine ⟨rfl, fun _ => show _ < _ + max _ 5 by omega, fun method code' hcode' => ?_⟩
  have hchanged : c' = c.withCodeAt call.method r.new := performed.changed
  rw [hchanged] at hcode'
  by_cases hmethod : method = call.method
  · obtain ⟨spliced, moved, hspliced, -, -, hnew, -⟩ := replacedCode_eq_ok performed.new
    rw [hmethod, ClassFile.codeAt?_withCodeAt r.new performed.old] at hcode'
    cases hcode'
    refine ⟨r.old, hmethod ▸ performed.old, ?_⟩
    rw [hnew]
    show spliced.bytes.size ≤ _
    exact size_le_of_splice hspliced
  · rw [ClassFile.codeAt?_withCodeAt_of_ne c hmethod] at hcode'
    exact ⟨code', hcode', Nat.le_max_right ..⟩

section Pass

variable (visit : Edit (σ × CallSite × ClassFile) Unit)

/-- Visit the dynamic calls of a method from a position on, in at most so many steps. -/
def watchedVisit (method : Nat) : (steps position : Nat) → Watched (σ × ClassFile) Unit
  | 0, _ => crash
  | steps + 1, position => do
    let (_, c) ← get
    let some code := c.codeAt? method | return
    let some found ← Bytecode.watchedNextCall code.bytes (code.bytes.size + 1) position | return
    let call ← ofStep (ofInstruction c method found)
    let position ← ofEdit (visitCall visit call)
    watchedVisit method steps position

/-- Visit the dynamic calls of a method, with a number of steps that may depend on the class
at that time. -/
def watchedBody (steps : ClassFile → Nat → Nat) (method : Nat) : Watched (σ × ClassFile) Unit := do
  let (_, c) ← get
  watchedVisit visit method (steps c method) 0

/-- Visit every dynamic call of a class. -/
def watchedPass : Watched (σ × ClassFile) Unit := do
  let (_, c) ← get
  (List.range c.methods.length).forM (watchedBody visit visitSteps)

variable {visit}

/-- The dynamic calls of a method are visited without a crash. Each step takes the search
at least one byte further, towards a bound that all bodies keep. -/
theorem watchedVisit_eq (forward : Forward visit) {method bound steps position : Nat} {state : σ}
    {c : ClassFile} (hlimit : 65535 ≤ bound)
    (hsize : ∀ code, c.codeAt? method = some code → code.bytes.size ≤ bound)
    (hsteps : 0 < steps) (hleft : bound < steps + position) :
    watchedVisit visit method steps position (state, c) =
      some ((visitMethod visit method steps position).runOn (state, c)) := by
  induction steps generalizing position state c with
  | zero => cases hsteps
  | succ steps ih =>
    rw [runOn_visitMethod, watchedVisit]
    have hget : (get : Watched (σ × ClassFile) _) (state, c) = some (.ok (state, c), (state, c)) :=
      rfl
    rw [Watched.bind_apply, hget]
    dsimp only
    cases hcode : c.codeAt? method with
    | none => rfl
    | some code =>
      dsimp only
      rw [Bytecode.watchedNextCall_eq (Nat.lt_succ_of_le (Nat.sub_le ..))]
      rcases hfound : Bytecode.nextDynamicCall? code.bytes position with e | (_ | found)
      · rfl
      · rfl
      rw [Watched.ofStep_ok_bind]
      dsimp only
      cases hcall : ofInstruction c method found with
      | error e => rfl
      | ok call =>
        obtain ⟨-, rfl, -⟩ := ofInstruction_eq_ok hcall
        have hbehind := (index_and_stop_of_ofInstruction hcall hcode).2
        obtain ⟨hle, hlt⟩ := Bytecode.bounds_of_nextDynamicCall? hfound
        have hbound := hsize code hcode
        rw [Watched.ofStep_ok_bind, Watched.bind_apply]
        have hvisit : ofEdit (visitCall visit call) (state, c) =
            some ((visitCall visit call).runOn (state, c)) := rfl
        rw [hvisit, runOn_visitCall]
        dsimp only
        rcases hrun : visit.runOn (state, call, c) with ⟨⟨e⟩ | ⟨⟨⟩⟩, state', left, c'⟩
        · rfl
        · obtain ⟨-, hstop, hgrown⟩ := forward state call c state' left c' hrun
          have hon := hstop (by omega)
          refine ih (fun new hnew => ?_) (by omega) (by omega)
          obtain ⟨old, hold, hgrown⟩ := hgrown method new hnew
          have hkept := hsize old hold
          omega

/-- A search in a method does not crash if it has steps enough in every class. -/
theorem watchedBody_eq {steps : ClassFile → Nat → Nat} {method : Nat}
    (h : ∀ state c, watchedVisit visit method (steps c method) 0 (state, c) =
      some ((visitMethod visit method (steps c method) 0).runOn (state, c))) :
    watchedBody visit steps method = ofEdit (visitBody visit steps method) :=
  funext fun (state, c) => h state c

/-- The dynamic calls of a class are visited without a crash. -/
theorem watchedPass_eq (forward : Forward visit) :
    watchedPass visit = ofEdit (ClassFile.editCallSites visit) := by
  rw [ClassFile.editCallSites_eq]
  refine Watched.bind_eq fun (_, c) => Watched.forM_eq (fun method => ?_) _
  refine watchedBody_eq fun state c => watchedVisit_eq forward (Nat.le_max_left ..)
    (fun code hcode => ?_) (Nat.succ_pos _) (Nat.lt_succ_self _)
  rw [hcode]
  exact Nat.le_max_right ..

end Pass

end CallSite

/-- **No walk over code crashes.** Every instruction takes a byte or more, and lies within
the code. So a walk comes to an end, and finds each opcode, operand and patched byte where
it takes it from, in any code whatever. A gap is inserted with an outcome, which is a result
or an error, and no distance between frames of a stack map goes below zero on the way. A
body is copied with an outcome, although its code changes under the walk. The search for
the call of another constructor has an outcome if it can count a third as many objects as
there are bytes, and so has the search for a dynamic call. A pass over all call sites of a
class ends if each visit lets the search go on behind the call. -/
theorem walks_never_crash :
    (∀ (code : Bytecode) (p n : Nat), code.instructionLength p = .ok n →
      1 ≤ n ∧ p + n ≤ code.size) ∧
    (∀ (position length : Nat) (exclusive : Bool) (cursor : Cursor),
      Cursor.watchedInsertGap position length exclusive cursor =
        some ((Cursor.insertGap position length exclusive).runOn cursor)) ∧
    (∀ (source dest : ConstantPool) (names : Renaming) (code : Code),
      code.watchedCopy source names dest = some ((code.copy source names).runOn dest)) ∧
    (∀ (pool : ConstantPool) (target : ConstructorTarget) (limit : Nat) (cursor : Cursor),
      cursor.code.bytes.size ≤ 3 * limit →
        Cursor.watchedSkip pool target limit cursor =
          some ((Cursor.skipConstructor pool target).runOn cursor)) ∧
    (∀ (code : Bytecode) (p : Nat), (code.watchedNextCall (code.size + 1) p : Watched Unit _) () =
      some (code.nextDynamicCall? p, ())) ∧
    ∀ (σ : Type) (visit : Edit (σ × CallSite × ClassFile) Unit), CallSite.Forward visit →
      ∀ state, CallSite.watchedPass visit state =
        some ((ClassFile.editCallSites visit).runOn state) := by
  refine ⟨fun code p n hl => ⟨Bytecode.one_le_instructionLength hl,
    Bytecode.add_instructionLength_le hl⟩, fun position length exclusive cursor => ?_,
    fun source dest names code => ?_, fun pool target limit cursor hlimit => ?_, fun code p => ?_,
    fun σ visit forward state => ?_⟩
  · rw [Cursor.watchedInsertGap_eq]
    rfl
  · rw [Code.watchedCopy_eq]
    rfl
  · exact Cursor.watchedSkip_eq pool target hlimit
  · rw [Bytecode.watchedNextCall_eq (Nat.lt_succ_of_le (Nat.sub_le ..))]
    rfl
  · rw [CallSite.watchedPass_eq forward]
    rfl

/-- The delegating call of a body is found with a counter of 31 bits, behind a load of one
byte, and the two calls of a class are replaced. -/
theorem walks_never_crash_delegatingBody :
    (Bytecode.instructionLength Cursor.delegatingBody.bytes 0 = .ok 1 ∧
      0 + 1 ≤ Cursor.delegatingBody.bytes.size) ∧
    (Cursor.delegatingBody.bytes.size ≤ 3 * 2147483647 ∧
      ∃ after, Cursor.watchedSkip Cursor.delegatingPool .this 2147483647
        (.ofCode Cursor.delegatingBody) = some (.ok (some 9), after)) ∧
    CallSite.Forward CallSite.proceedVisit ∧
      ∃ after, CallSite.watchedPass CallSite.proceedVisit ((), CallSite.chainedClass) =
        some (.ok (), after) := by
  obtain ⟨hlength, -, -, hskip, -, hpass⟩ := walks_never_crash
  have hfirst : Bytecode.instructionLength Cursor.delegatingBody.bytes 0 = .ok 1 := by
    decide +kernel
  have hlimit : Cursor.delegatingBody.bytes.size ≤ 3 * 2147483647 := by decide +kernel
  have hfound : ((Cursor.skipConstructor Cursor.delegatingPool .this).runOn
      (.ofCode Cursor.delegatingBody)).1 = .ok (some 9) := by decide +kernel
  have hdone : ((ClassFile.editCallSites CallSite.proceedVisit).runOn
      ((), CallSite.chainedClass)).1 = .ok () := by decide +kernel
  have hforward : CallSite.Forward CallSite.proceedVisit :=
    CallSite.forward_replace _ _
  refine ⟨⟨hfirst, (hlength _ 0 1 hfirst).2⟩, ⟨hlimit, ?_⟩, hforward, ?_⟩
  · rw [hskip Cursor.delegatingPool .this 2147483647 (.ofCode Cursor.delegatingBody) hlimit,
      Edit.runOn_eq_of_fst _ hfound]
    exact ⟨_, rfl⟩
  · rw [hpass Unit CallSite.proceedVisit hforward, Edit.runOn_eq_of_fst _ hdone]
    exact ⟨_, rfl⟩

end JvmClass
