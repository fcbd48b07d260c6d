import JvmClass.Proofs.CallSite.Splice
import JvmClass.Proofs.Edit

/-!
# Steps of a replacement

A replacement that succeeds has parsed the descriptor of the call, allotted
slots, had a statement compiled, and put the compiled code, between a prologue
and an epilogue, in the place of the call.
-/

namespace JvmClass

/-! ## Bodies of methods -/

/-- The first attribute of a kind is the one that is changed. -/
theorem Attribute.findByKind?_modifyFirst {kind : AttributeKind} {f : Attribute → Attribute}
    (hkind : ∀ a, a.kind = kind → (f a).kind = kind) (list : List Attribute) :
    findByKind? kind (modifyFirst kind f list) = (findByKind? kind list).map f := by
  induction list with
  | nil => rfl
  | cons a list ih =>
    unfold findByKind? at ih ⊢
    by_cases ha : a.kind = kind
    · rw [modifyFirst, if_pos ha, List.find?_cons_of_pos (by simp [hkind a ha]),
        List.find?_cons_of_pos (by simp [ha])]
      rfl
    · rw [modifyFirst, if_neg ha, List.find?_cons_of_neg (by simp [ha]),
        List.find?_cons_of_neg (by simp [ha]), ih]

/-- A method has the body that it is given. -/
theorem Method.code?_withCode {m : Method} {old : Code} (new : Code) (h : m.code? = some old) :
    (m.withCode new).code? = some new := by
  unfold code? attribute? attributeList at h ⊢
  unfold withCode
  cases hattributes : m.attributes with
  | none =>
    rw [hattributes] at h
    cases h
  | some list =>
    rw [hattributes] at h
    simp only [Option.getD_some, Option.map_some] at h ⊢
    rw [Attribute.findByKind?_modifyFirst fun a (_ : a.kind = .code) => rfl, Option.map_map]
    cases hfound : Attribute.findByKind? .code list with
    | none =>
      rw [hfound] at h
      cases h
    | some a => rfl

namespace ClassFile

variable {c : ClassFile} {method : Nat} {old : Code}

/-- A class with another body in one of its methods. -/
def withCodeAt (c : ClassFile) (method : Nat) (code : Code) : ClassFile :=
  { c with methods := c.methods.modify method fun m => m.withCode code }

/-- A class has the body that one of its methods is given. -/
theorem codeAt?_withCodeAt (new : Code) (h : c.codeAt? method = some old) :
    (c.withCodeAt method new).codeAt? method = some new := by
  unfold codeAt? withCodeAt at *
  obtain ⟨m, hm, hcode⟩ := Option.bind_eq_some_iff.mp h
  rw [List.getElem?_modify_eq, hm]
  exact Method.code?_withCode new hcode

/-- All other methods keep their bodies. -/
theorem codeAt?_withCodeAt_of_ne (c : ClassFile) {i : Nat} (hne : i ≠ method) (new : Code) :
    (c.withCodeAt method new).codeAt? i = c.codeAt? i := by
  have hkept := List.getElem?_modify_ne (fun m : Method => m.withCode new) c.methods (Ne.symm hne)
  exact congrArg (fun found => found.bind Method.code?) hkept

end ClassFile

namespace CallSite

/-! ## Replacements -/

/-- What a replacement is made of, and what it makes. -/
structure Replacement where
  /-- The body of the method before. -/
  old : Code
  /-- The body of the method afterwards. -/
  new : Code
  /-- The types of the arguments of the call. -/
  parameters : List Descriptor
  /-- The type of its result, if it has one. -/
  result : Option Descriptor
  /-- The statement that takes its place. -/
  compiled : CompiledStatement

namespace Replacement

variable (r : Replacement)

/-- The slots for the statement. -/
def slots : ReplacementSlots := .allot r.old.maxLocals.toNat r.parameters r.result

/-- The code before the statement. -/
def prologue : List UInt8 := r.slots.prologue r.parameters

/-- The code behind the statement. -/
def epilogue : List UInt8 := r.slots.epilogue r.result

/-- The code that takes the place of the call. -/
def body : List UInt8 := r.prologue ++ r.compiled.code ++ r.epilogue

/-- The operand stack that the statement needs. -/
def stack : UInt16 := max r.compiled.maxStack 1

/-- What a replacement of a call by a statement has done, from the state of the
compiler and the class before to those afterwards. -/
structure Performed {σ : Type} (compiler : StatementCompiler σ) (statement : String)
    (call : CallSite) (before after : σ × ClassFile) : Prop where
  /-- The types are those of the descriptor of the call. -/
  signature : ∃ descriptor, call.descriptor before.2 = .ok descriptor ∧
    CallSite.signature descriptor = .ok (r.parameters, r.result)
  /-- The old body was in the class. -/
  old : before.2.codeAt? call.method = some r.old
  /-- The slots fit 16 bits. -/
  slots : r.slots.stop ≤ 65535
  /-- The compiler has given the statement. -/
  compiled : ∃ owner, before.2.name = .ok owner ∧
    (call.compileStatement compiler statement before.2.pool r.old owner r.parameters r.result
      r.slots).runOn before.1 = (.ok r.compiled, after.1)
  /-- The new body is made from the old one. -/
  new : call.replacedCode r.old r.parameters r.result r.slots r.compiled =
    .ok (r.new, r.body.length)
  /-- Nothing else in the class has changed. -/
  changed : after.2 = before.2.withCodeAt call.method r.new

end Replacement

variable {σ : Type} {compiler : StatementCompiler σ} {statement : String} {state state' : σ}
  {call call' : CallSite} {c c' : ClassFile}

/-- A call that is found is an instruction of a body in the class. -/
theorem ofInstruction_eq_ok {method position : Nat}
    (h : ofInstruction c method position = .ok call) :
    call.method = method ∧ call.position = position ∧
      ∃ code, c.codeAt? method = some code ∧
        code.bytes[position]? = some Opcode.invokeDynamic := by
  unfold ofInstruction at h
  split at h
  · next code hcode =>
    split at h
    · next callSiteIndex hindex =>
      obtain ⟨entry, -, h⟩ := bind_eq_ok_iff.mp h
      cases h
      unfold Bytecode.dynamicCallAt? at hindex
      split at hindex
      · next hcall => exact ⟨rfl, rfl, code, hcode, hcall.2⟩
      · cases hindex
    · cases h
  · cases h

/-- A call that is found has the index that its instruction names, and ends behind its
five bytes. -/
theorem index_and_stop_of_ofInstruction {method position : Nat} {code : Code}
    (h : ofInstruction c method position = .ok call) (hcode : c.codeAt? method = some code) :
    Bytecode.dynamicCallAt? code.bytes position = some call.callSiteIndex ∧
      call.stop = position + 5 := by
  unfold ofInstruction at h
  rw [hcode] at h
  simp only at h
  split at h
  · next callSiteIndex hindex =>
    obtain ⟨entry, -, h⟩ := bind_eq_ok_iff.mp h
    cases h
    exact ⟨hindex, rfl⟩
  · cases h

/-- A new body is the old one with the code in the place of the call, with more
handlers and larger limits. -/
theorem replacedCode_eq_ok {code new : Code} {parameters : List Descriptor}
    {result : Option Descriptor} {slots : ReplacementSlots} {compiled : CompiledStatement}
    {length : Nat}
    (h : call.replacedCode code parameters result slots compiled = .ok (new, length)) :
    ∃ spliced moved, call.splice code (slots.prologue parameters ++ compiled.code ++
        slots.epilogue result) = .ok spliced ∧
      compiled.handlers.mapM (Handler.move (call.position + (slots.prologue parameters).length)) =
        .ok moved ∧
      spliced.maxStack.toNat + (max compiled.maxStack 1).toNat ≤ 65535 ∧
      new = { spliced with
        handlers := moved ++ spliced.handlers
        maxLocals := max (max spliced.maxLocals compiled.maxLocals) (UInt16.ofNat slots.stop)
        maxStack := spliced.maxStack + max compiled.maxStack 1 } ∧
      length = (slots.prologue parameters ++ compiled.code ++ slots.epilogue result).length := by
  unfold replacedCode at h
  obtain ⟨spliced, hspliced, h⟩ := bind_eq_ok_iff.mp h
  obtain ⟨handled, hhandled, h⟩ := bind_eq_ok_iff.mp h
  obtain ⟨moved, hmoved, hhandled⟩ := bind_eq_ok_iff.mp hhandled
  cases hhandled
  by_cases hroom : 65535 < spliced.maxStack.toNat + (max compiled.maxStack 1).toNat
  · simp only [if_pos hroom] at h
    cases h
  · simp only [if_neg hroom] at h
    cases h
    exact ⟨spliced, moved, hspliced, hmoved, Nat.le_of_not_lt hroom, rfl, rfl⟩

/-- A replacement that succeeds has gone through all of its steps. -/
theorem exists_performed
    (h : (replace compiler statement).runOn (state, call, c) = (.ok (), state', call', c')) :
    ∃ r : Replacement, r.Performed compiler statement call (state, c) (state', c') ∧
      call' = { call with stop := call.position + max r.body.length 5 } := by
  unfold replace Edit.runOn at h
  simp only [ExceptT.mk, ExceptT.run] at h
  split at h
  · cases h
  next parameters result owner code slots hprepared =>
  obtain ⟨descriptor, hdescriptor, hprepared⟩ := bind_eq_ok_iff.mp hprepared
  obtain ⟨types, hsignature, hprepared⟩ := bind_eq_ok_iff.mp hprepared
  obtain ⟨found, howner, hprepared⟩ := bind_eq_ok_iff.mp hprepared
  split at hprepared
  · next old hold =>
    by_cases hstop : 65535 < (ReplacementSlots.allot old.maxLocals.toNat types.1 types.2).stop
    · simp only [if_pos hstop] at hprepared
      cases hprepared
    simp only [if_neg hstop] at hprepared
    cases hprepared
    split at h
    · cases h
    next compiled state'' hcompiled =>
    split at h
    · cases h
    next new length hnew =>
    cases h
    obtain ⟨-, -, -, -, -, -, rfl⟩ := replacedCode_eq_ok hnew
    exact ⟨⟨code, new, types.1, types.2, compiled⟩,
      ⟨⟨descriptor, hdescriptor, hsignature⟩, hold, Nat.le_of_not_lt hstop,
        ⟨owner, howner, hcompiled⟩, hnew, rfl⟩, rfl⟩
  · cases hprepared

/-- A replacement that fails leaves the call and the class as they were. -/
theorem eq_of_replace_eq_error {e : Error}
    (h : (replace compiler statement).runOn (state, call, c) = (.error e, state', call', c')) :
    call' = call ∧ c' = c := by
  unfold replace Edit.runOn at h
  simp only [ExceptT.mk, ExceptT.run] at h
  split at h
  · cases h
    exact ⟨rfl, rfl⟩
  split at h
  · cases h
    exact ⟨rfl, rfl⟩
  split at h
  · cases h
    exact ⟨rfl, rfl⟩
  · cases h

/-- A replacement of a call that was found in a class puts another body into the
class. -/
theorem exists_replacement {method position : Nat} {code : Code}
    (hcall : ofInstruction c method position = .ok call) (hcode : c.codeAt? method = some code)
    (h : (replace compiler statement).runOn (state, call, c) = (.ok (), state', call', c')) :
    call.position = position ∧ code.bytes[position]? = some Opcode.invokeDynamic ∧
      ∃ r : Replacement, r.old = code ∧
        r.Performed compiler statement call (state, c) (state', c') ∧
        c'.codeAt? method = some r.new ∧
        call' = { call with stop := position + max r.body.length 5 } := by
  obtain ⟨rfl, rfl, found, hfound, hbyte⟩ := ofInstruction_eq_ok hcall
  cases hfound.symm.trans hcode
  obtain ⟨r, performed, rfl⟩ := exists_performed h
  have hchanged : c' = c.withCodeAt call.method r.new := performed.changed
  refine ⟨rfl, hbyte, r, Option.some.inj (performed.old.symm.trans hcode), performed, ?_, rfl⟩
  rw [hchanged]
  exact ClassFile.codeAt?_withCodeAt r.new hcode

/-- The body of a replacement has the code in the place of the call. -/
theorem Replacement.Performed.exists_spliced {r : Replacement} {before after : σ × ClassFile}
    {starts : List Nat} (performed : r.Performed compiler statement call before after)
    (walk : Bytecode.Walk r.old.bytes 0 starts r.old.bytes.size) (hmem : call.position ∈ starts)
    (hbyte : r.old.bytes[call.position]? = some Opcode.invokeDynamic) :
    ∃ spliced moved, r.old.Spliced call.position r.body starts spliced ∧
      r.compiled.handlers.mapM (Handler.move (call.position + r.prologue.length)) = .ok moved ∧
      spliced.maxStack.toNat + r.stack.toNat ≤ 65535 ∧
      r.new = { spliced with
        handlers := moved ++ spliced.handlers
        maxLocals := max (max spliced.maxLocals r.compiled.maxLocals) (UInt16.ofNat r.slots.stop)
        maxStack := spliced.maxStack + r.stack } := by
  obtain ⟨spliced, moved, hspliced, hmoved, hstack, hnew, -⟩ := replacedCode_eq_ok performed.new
  exact ⟨spliced, moved, spliced_of_splice walk hmem hbyte hspliced, hmoved, hstack, hnew⟩

end CallSite

end JvmClass
