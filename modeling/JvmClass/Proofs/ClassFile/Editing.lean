import JvmClass.Proofs.CallSite.Replacement
import JvmClass.Proofs.ConstantPool.Representation
import JvmClass.Proofs.Transform.Chain

/-!
# Edited classes are read back

A class that is read and then edited stays readable, whatever the edits are, in
which order they come, and which of them fail. If it can be written, reading what
was written gives the same class.
-/

namespace JvmClass

/-! ## Edits -/

/-- A request to change a method, which may need new entries in the pool. -/
inductive Method.Request where
  /-- Give the method another name. -/
  | rename (name : String)
  /-- Give the method another descriptor. -/
  | withDescriptor (descriptor : String)
  /-- Make the method, if it is a constructor, call that of another class. -/
  | withSuperclass (superclass : String)

/-- What a request does to a method. -/
def Method.Request.edit (m : Method) : Method.Request → Edit ConstantPool Method
  | .rename name => m.rename name
  | .withDescriptor descriptor => m.withDescriptor descriptor
  | .withSuperclass superclass => m.withSuperclass superclass

/-- A request keeps the method readable. -/
theorem Method.Request.keeps (m : Method) (request : Method.Request) :
    m.Keeps (request.edit m) := by
  cases request with
  | rename name => exact m.keeps_rename name
  | withDescriptor descriptor => exact m.keeps_withDescriptor descriptor
  | withSuperclass superclass => exact m.keeps_withSuperclass superclass

namespace ClassFile

/-- Change a method of a class. What the edit adds to the pool stays there even
if it fails, and the method stays as it was then. -/
def editMethod (c : ClassFile) (i : Nat) (edit : Edit ConstantPool Method) : ClassFile :=
  match edit.runOn c.pool with
  | (.ok m, pool) => { c with pool, methods := c.methods.set i m }
  | (.error _, pool) => { c with pool }

/-- One edit of a class, with success or not. -/
inductive EditStep (c : ClassFile) : ClassFile → Prop where
  /-- An entry is requested from the pool. -/
  | pool (addition : ConstantPool.Addition) :
      EditStep c { c with pool := (addition.index.runOn c.pool).2 }
  /-- A body is changed through a cursor. -/
  | body {i : Nat} {code : Code} (hcode : c.codeAt? i = some code) (position : Nat)
      (request : Cursor.Request) :
      EditStep c (c.withCodeAt i (request.edit.runOn ⟨code, position⟩).2.code)
  /-- A dynamic call is replaced by a statement. -/
  | call {σ : Type} (compiler : StatementCompiler σ) (statement : String) (state : σ)
      (call : CallSite) :
      EditStep c ((CallSite.replace compiler statement).runOn (state, call, c)).2.2.2
  /-- A chain of redirections is run over all methods. -/
  | transform (hierarchy : TypeHierarchy) (stages : Chain FieldRedirect) :
      EditStep c ((Chain.applyToClass hierarchy).runOn (stages, c)).2.2
  /-- A method is changed. -/
  | method {i : Nat} {m : Method} (hm : c.methods[i]? = some m) (request : Method.Request) :
      EditStep c (c.editMethod i (request.edit m))
  /-- The attributes of a kind are taken from a method. -/
  | remove (i : Nat) (kind : AttributeKind) :
      EditStep c { c with methods := c.methods.modify i fun m => m.removeKind kind }

/-- The classes that are read and then edited. -/
inductive Edited : ClassFile → Prop where
  /-- A class that is read. -/
  | read {id : Nat} {bytes rest : List UInt8} {c : ClassFile}
      (h : decode id bytes = .ok (c, rest)) : Edited c
  /-- A class after one more edit. -/
  | step {c next : ClassFile} (before : Edited c) (edit : EditStep c next) : Edited next

/-! ## Every edit keeps classes readable -/

section Keeps

variable {c : ClassFile}

/-- A class whose pool has grown is read back. -/
theorem Readable.grows (hc : c.Readable) {pool : ConstantPool} (hgrows : c.pool.Grows pool) :
    ({ c with pool } : ClassFile).Readable where
  pool := hgrows.consistent hc.pool
  fields f hf a ha := (hc.fields f hf a ha).grows hgrows
  methods m hm := (hc.methods m hm).grows hgrows
  attributes a ha := (hc.attributes a ha).grows hgrows

/-- A class with other methods is read back if these are. -/
theorem Readable.withMethods (hc : c.Readable) {methods : List Method}
    (hmethods : ∀ m ∈ methods, m.Readable c.pool) :
    ({ c with methods } : ClassFile).Readable where
  pool := hc.pool
  fields := hc.fields
  methods := hmethods
  attributes := hc.attributes

/-- A class in which one method is changed is read back if the changed method is. -/
theorem Readable.modify (hc : c.Readable) (i : Nat) {f : Method → Method}
    (hf : ∀ m, c.methods[i]? = some m → (f m).Readable c.pool) :
    ({ c with methods := c.methods.modify i f } : ClassFile).Readable := by
  refine hc.withMethods fun m hm => ?_
  obtain ⟨j, hj⟩ := List.mem_iff_getElem?.mp hm
  rw [List.getElem?_modify] at hj
  obtain ⟨old, hold, rfl⟩ := Option.map_eq_some_iff.mp hj
  by_cases hij : i = j
  · rw [if_pos hij]
    exact hf old (hij ▸ hold)
  · rw [if_neg hij]
    exact hc.methods old (List.mem_of_getElem? hold)

/-- A class with another body in one of its methods is read back if the body
keeps the attributes readable. -/
theorem Readable.withCodeAt (hc : c.Readable) {i : Nat} {old new : Code}
    (hold : c.codeAt? i = some old) (hnew : old.KeepsReadable new) :
    (c.withCodeAt i new).Readable := by
  refine hc.modify i fun m hm => ?_
  obtain ⟨found, hfound, hcode⟩ := Option.bind_eq_some_iff.mp hold
  cases hfound.symm.trans hm
  exact (hc.methods m (List.mem_of_getElem? hm)).editCode hcode hnew

/-- A class is read back after a method was changed. -/
theorem Readable.editMethod (hc : c.Readable) {i : Nat} {m : Method}
    (hm : c.methods[i]? = some m) {edit : Edit ConstantPool Method} (hedit : m.Keeps edit) :
    (c.editMethod i edit).Readable := by
  have hgives := hedit.yields c.pool
  unfold ClassFile.editMethod
  rcases hrun : edit.runOn c.pool with ⟨outcome, pool⟩
  have hgrows := hedit.onlyAdds.grows_of_eq hrun
  rw [hrun] at hgives
  cases outcome with
  | error e => exact hc.grows hgrows
  | ok new =>
    have hold := hc.methods m (List.mem_of_getElem? hm)
    have hnew : new.Readable pool := (hold.grows hgrows).editedFrom (hgives new rfl)
    refine (hc.grows hgrows).withMethods fun other hother => ?_
    rcases List.mem_or_eq_of_mem_set hother with hkept | rfl
    · exact (hc.methods other hkept).grows hgrows
    · exact hnew

end Keeps

end ClassFile

/-- The code that replaces a call keeps the attributes of the body readable. -/
theorem CallSite.keepsReadable_replacedCode {call : CallSite} {code new : Code}
    {parameters : List Descriptor} {result : Option Descriptor} {slots : ReplacementSlots}
    {compiled : CompiledStatement} {length : Nat}
    (h : call.replacedCode code parameters result slots compiled = .ok (new, length)) :
    code.KeepsReadable new := by
  obtain ⟨spliced, moved, hsplice, -, -, rfl, -⟩ := replacedCode_eq_ok h
  obtain ⟨blanked, hblanked, hsplice⟩ := bind_eq_ok_iff.mp hsplice
  obtain ⟨⟨s, opened⟩, hopened, hfilled⟩ := bind_eq_ok_iff.mp hsplice
  have hspliced : code.KeepsReadable spliced :=
    ((Code.keepsReadable_write hblanked).trans (Code.keepsReadable_insertGap hopened)).trans
      (Code.keepsReadable_write hfilled)
  exact hspliced.trans (.of_eq rfl)

namespace ClassFile

/-- A call that is replaced leaves the class readable, and so does one that
cannot be. -/
theorem Readable.replace {c : ClassFile} (hc : c.Readable) {σ : Type}
    (compiler : StatementCompiler σ) (statement : String) (state : σ) (call : CallSite) :
    ((CallSite.replace compiler statement).runOn (state, call, c)).2.2.2.Readable := by
  rcases hrun : (CallSite.replace compiler statement).runOn (state, call, c) with
    ⟨outcome, state', call', c'⟩
  cases outcome with
  | ok u =>
    obtain ⟨r, performed, -⟩ := CallSite.exists_performed hrun
    have hchanged : c' = c.withCodeAt call.method r.new := performed.changed
    rw [hchanged]
    exact hc.withCodeAt performed.old (CallSite.keepsReadable_replacedCode performed.new)
  | error e =>
    have hsame : c' = c := (CallSite.eq_of_replace_eq_error hrun).2
    rw [hsame]
    exact hc

/-- Every edit leaves the class readable. -/
theorem EditStep.readable {c next : ClassFile} (step : EditStep c next) (hc : c.Readable) :
    next.Readable := by
  cases step with
  | pool addition => exact hc.grows (addition.onlyAdds.grows c.pool)
  | @body i code hcode position request =>
    exact hc.withCodeAt hcode (request.keepsReadable ⟨code, position⟩)
  | call compiler statement state call => exact hc.replace compiler statement state call
  | transform hierarchy stages =>
    exact Chain.readable_applyToClass FieldRedirect.leadsOn hierarchy stages hc
  | method hm request => exact hc.editMethod hm (Method.Request.keeps _ request)
  | remove i kind =>
    exact hc.modify i fun m hm => (hc.methods m (List.mem_of_getElem? hm)).removeKind kind

/-- A class that was read stays readable over all edits. -/
theorem Edited.readable {c : ClassFile} (h : Edited c) : c.Readable := by
  induction h with
  | read h => exact readable_of_decode h
  | step _ edit ih => exact edit.readable ih

/-- A class that was read and then edited, and that can be written, is read from
what was written: with the same entries at the same indices of its pool, and with
everything else as it was. -/
theorem Edited.reread {c : ClassFile} (h : Edited c) {bytes : List UInt8}
    (hbytes : c.encode = .ok bytes) (id : Nat) :
    ∃ pool, pool.slots = c.pool.slots ∧ decode id bytes = .ok ({ c with pool }, []) := by
  obtain ⟨pool, hslots, hread⟩ := decode_encode h.readable hbytes id []
  rw [List.append_nil] at hread
  exact ⟨pool, hslots, hread⟩

/-- A gap of a hundred bytes in front of a body, which branches to it skip. -/
def gapInFront (code : Code) : Code :=
  ((Cursor.Request.insertGap 0 100 true).edit.runOn ⟨code, 0⟩).2.code

/-- After a gap in front of its only instruction, the class of the nested bodies
is read from what is written. Its frame has taken the form that holds any
distance. -/
theorem Edited.reread_nestedBytes :
    ∃ c code bytes, decode 0 nestedBytes = .ok (c, []) ∧ c.codeAt? 0 = some code ∧
      (gapInFront code).stackMap? = some [.sameExtended 100] ∧
      (c.withCodeAt 0 (gapInFront code)).encode = .ok bytes ∧
      ∃ pool, pool.slots = c.pool.slots ∧
        decode 1 bytes = .ok ({ c.withCodeAt 0 (gapInFront code) with pool }, []) := by
  obtain ⟨c, code, hc, hcode⟩ :
      ∃ c code, decode 0 nestedBytes = .ok (c, []) ∧ c.codeAt? 0 = some code :=
    ⟨_, _, rfl, rfl⟩
  have hrun : ∀ read ∈ (decode 0 nestedBytes).toOption, ∀ code ∈ read.1.codeAt? 0,
      (gapInFront code).stackMap? = some [.sameExtended 100] ∧
        ((read.1.withCodeAt 0 (gapInFront code)).encode.isOk = true) := by
    decide +kernel
  have hread : (c, []) ∈ (decode 0 nestedBytes).toOption := by
    rw [hc]
    rfl
  obtain ⟨hmap, hencode⟩ := hrun (c, []) hread code hcode
  have hedited := (Edited.read hc).step (.body hcode 0 (.insertGap 0 100 true))
  cases hbytes : (c.withCodeAt 0 (gapInFront code)).encode with
  | error e =>
    rw [hbytes] at hencode
    cases hencode
  | ok bytes =>
    obtain ⟨pool, hslots, hreread⟩ := Edited.reread hedited hbytes 1
    exact ⟨c, code, bytes, hc, hcode, hmap, hbytes, pool, hslots, hreread⟩

end ClassFile

end JvmClass
