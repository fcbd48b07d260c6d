import JvmClass.Proofs.ConstantPool.Copying
import JvmClass.Proofs.Transform.FieldRedirect
import JvmClass.Proofs.Transform.Rounds

/-!
# Operands of field accesses

Redirections touch no other bytes of a body than the operands of the instructions
that access fields. So a body keeps its instructions, whatever redirections are run
over it, and each instruction can be told by its place.
-/

namespace JvmClass

/-! ## Fields that code refers to -/

namespace Bytecode

/-- Whether the instruction at a position accesses a field. -/
def accessesField (code : Bytecode) (p : Nat) : Bool := code[p]?.any Opcode.isFieldAccess

/-- The instruction at a position accesses a field, to which its operand refers. -/
structure RefersTo (code : Bytecode) (pool : ConstantPool) (p : Nat) (field : MemberRef) :
    Prop where
  /-- The instruction accesses a field. -/
  access : code.accessesField p = true
  /-- Its operand is an index of the field. -/
  operand : ∃ i, code.u16At? (p + 1) = some i ∧ pool.field i = .ok field

section RefersTo

variable {code code' : Bytecode} {pool pool' : ConstantPool} {p n : Nat} {field other : MemberRef}

theorem accessesField_eq_true_iff :
    code.accessesField p = true ↔ ∃ op, code[p]? = some op ∧ Opcode.isFieldAccess op = true := by
  unfold accessesField
  rw [Option.any_eq_true]

/-- An instruction that accesses a field is one of three bytes. -/
theorem length_of_accessesField (h : code.accessesField p = true)
    (hl : code.instructionLength p = .ok n) : n = 3 := by
  obtain ⟨op, byte, haccess⟩ := accessesField_eq_true_iff.mp h
  obtain ⟨op', byte', hclaimed⟩ := (instructionLength_eq_ok_iff.mp hl).1.claimedLength
  cases byte.symm.trans byte'
  unfold claimedLength at hclaimed
  rw [Layout.of_isFieldAccess haccess] at hclaimed
  cases hclaimed
  rfl

/-- The operand of an access does not matter for the length of an instruction. -/
theorem instructionLength_of_operand (hl : code.instructionLength p = .ok n)
    (hsize : code'.size = code.size)
    (h : ∀ j < n, (code.accessesField p = true → j = 0) → code'[p + j]? = code[p + j]?) :
    code'.instructionLength p = .ok n := by
  by_cases haccess : code.accessesField p = true
  · cases length_of_accessesField haccess hl
    have hle := add_instructionLength_le hl
    obtain ⟨op, byte, hop⟩ := accessesField_eq_true_iff.mp haccess
    have byte' : code'[p]? = some op := (h 0 (by omega) fun _ => rfl).trans byte
    unfold instructionLength claimedLength
    rw [byte']
    simp only [Layout.of_isFieldAccess hop]
    exact if_pos (by omega)
  · exact (eq_of_bytes hl fun j hj => h j hj fun h => absurd h haccess).1

instance (code : Bytecode) (pool : ConstantPool) (p : Nat) (field : MemberRef) :
    Decidable (code.RefersTo pool p field) :=
  decidable_of_iff (code.accessesField p = true ∧
      ((code.u16At? (p + 1)).any fun i => pool.field i = .ok field) = true) <| by
    rw [Option.any_eq_true]
    exact ⟨fun ⟨access, i, hi, hfield⟩ => ⟨access, i, hi, of_decide_eq_true hfield⟩,
      fun ⟨access, i, hi, hfield⟩ => ⟨access, i, hi, decide_eq_true hfield⟩⟩

/-- An operand refers to one field only. -/
theorem RefersTo.unique (h : code.RefersTo pool p field) (h' : code.RefersTo pool p other) :
    field = other := by
  obtain ⟨i, hi, hfield⟩ := h.operand
  obtain ⟨j, hj, hother⟩ := h'.operand
  cases hi.symm.trans hj
  exact Except.ok.inj (hfield.symm.trans hother)

/-- An operand refers to the same field when the pool has grown. -/
theorem RefersTo.grows (h : code.RefersTo pool p field) (grows : pool.Grows pool') :
    code.RefersTo pool' p field := by
  obtain ⟨i, hi, hfield⟩ := h.operand
  exact ⟨h.access, i, hi, grows.memberOf hfield⟩

/-- The field that an instruction refers to depends on its own three bytes only. -/
theorem RefersTo.congr (h : code.RefersTo pool p field)
    (hbytes : ∀ j < 3, code'[p + j]? = code[p + j]?) : code'.RefersTo pool p field := by
  obtain ⟨i, hi, hfield⟩ := h.operand
  refine ⟨?_, i, ?_, hfield⟩
  · unfold accessesField
    rw [← h.access]
    exact congrArg (Option.any Opcode.isFieldAccess) (hbytes 0 (by omega))
  · rw [← hi]
    refine u16At?_congr fun j hj => ?_
    rw [Nat.add_assoc]
    exact hbytes (1 + j) (by omega)

end RefersTo

end Bytecode

/-! ## Bodies that differ in operands only -/

/-- Two bodies are equal but for the operands of the accesses to fields among some
instructions. -/
structure Code.SameButFields (code new : Code) (starts : List Nat) : Prop where
  /-- All but the bytes is the same. -/
  rest : new = { code with bytes := new.bytes }
  /-- There are as many bytes. -/
  size : new.bytes.size = code.bytes.size
  /-- All bytes are the same but those of the operands. -/
  bytes : ∀ j, (∀ p ∈ starts, Bytecode.accessesField code.bytes p = true → j < p + 1 ∨ p + 3 ≤ j) →
    new.bytes[j]? = code.bytes[j]?

namespace Code.SameButFields

open Bytecode

variable {code mid new : Code} {starts some : List Nat} {first p n : Nat}

/-- A body is equal to itself. -/
theorem refl (code : Code) (starts : List Nat) : code.SameButFields code starts := by
  refine ⟨?_, rfl, fun _ _ => rfl⟩
  cases code
  rfl

/-- More instructions may differ. -/
theorem mono (same : code.SameButFields new some) (h : ∀ p ∈ some, p ∈ starts) :
    code.SameButFields new starts :=
  ⟨same.rest, same.size, fun j hj => same.bytes j fun p hp => hj p (h p hp)⟩

/-- An instruction that accesses no field stays as it is, and every instruction keeps
its opcode. -/
theorem getElem?_eq (same : code.SameButFields new starts)
    (walk : Walk code.bytes first starts code.bytes.size) (hp : p ∈ starts)
    (hl : instructionLength code.bytes p = .ok n) {j : Nat} (hj : j < n)
    (hother : accessesField code.bytes p = true → j = 0) :
    new.bytes[p + j]? = code.bytes[p + j]? := by
  refine same.bytes (p + j) fun q hq haccess => ?_
  obtain ⟨m, hm⟩ := walk.exists_length hq
  cases length_of_accessesField haccess hm
  rcases Nat.lt_trichotomy p q with hlt | rfl | hlt
  · have hnext := walk.add_length_le hp hl (.inl hq) hlt
    omega
  · have hzero := hother haccess
    omega
  · have hnext := walk.add_length_le hq hm (.inl hp) hlt
    omega

/-- The same instructions access fields. -/
theorem accessesField_eq (same : code.SameButFields new starts)
    (walk : Walk code.bytes first starts code.bytes.size) (hp : p ∈ starts) :
    accessesField new.bytes p = accessesField code.bytes p := by
  obtain ⟨n, hl⟩ := walk.exists_length hp
  have hone := one_le_instructionLength hl
  exact congrArg (Option.any Opcode.isFieldAccess)
    (same.getElem?_eq walk hp hl (j := 0) hone fun _ => rfl)

/-- The walk over a body stays the same. -/
theorem walk (same : code.SameButFields new starts)
    (walk : Walk code.bytes first starts code.bytes.size) :
    Walk new.bytes first starts new.bytes.size := by
  rw [same.size]
  refine walk.congr fun p hp => ?_
  obtain ⟨n, hl⟩ := walk.exists_length hp
  rw [hl]
  exact instructionLength_of_operand hl same.size fun j hj => same.getElem?_eq walk hp hl hj

/-- What differs in two steps, if they agree on the instructions that access fields. -/
theorem trans (same : code.SameButFields mid starts) (later : mid.SameButFields new starts)
    (haccess : ∀ p ∈ starts, accessesField mid.bytes p = accessesField code.bytes p) :
    code.SameButFields new starts := by
  refine ⟨?_, later.size.trans same.size, fun j hj => ?_⟩
  · rw [later.rest, same.rest]
  · rw [← same.bytes j hj]
    exact later.bytes j fun p hp h => hj p hp ((haccess p hp).symm.trans h)

/-- Two bodies differ in both directions. -/
theorem symm (same : code.SameButFields new starts)
    (walk : Walk code.bytes first starts code.bytes.size) : new.SameButFields code starts := by
  refine ⟨?_, same.size.symm, fun j hj => (same.bytes j fun p hp haccess => hj p hp ?_).symm⟩
  · rw [same.rest]
    cases code
    rfl
  · rw [same.accessesField_eq walk hp, haccess]

end Code.SameButFields

namespace FieldRedirect

open Bytecode

/-! ## Visits -/

/-- What a visit to an instruction does, if it succeeds. -/
inductive Step (stage : FieldRedirect) (hierarchy : TypeHierarchy) (pool : ConstantPool)
    (code : Code) (p : Nat) : FieldRedirect → ConstantPool → Code → Prop where
  /-- The instruction accesses no field. -/
  | other (h : accessesField code.bytes p = false) :
      Step stage hierarchy pool code p stage pool code
  /-- The instruction accesses another field. -/
  | passed {field : MemberRef} (refers : RefersTo code.bytes pool p field)
      (concerns : stage.concerns hierarchy field = false) :
      Step stage hierarchy pool code p stage pool code
  /-- The instruction gets the index of the new field. -/
  | redirected {field : MemberRef} {i : UInt16} {stage' : FieldRedirect} {pool' : ConstantPool}
      (refers : RefersTo code.bytes pool p field) (concerns : stage.concerns hierarchy field = true)
      (target : stage.targetIndex field.descriptor pool = (.ok i, stage', pool'))
      (room : p + 1 + 2 ≤ code.bytes.size) :
      Step stage hierarchy pool code p stage' pool'
        { code with bytes := Bytecode.overwrite code.bytes (p + 1) (Codec.bytesOfU16 i) }

section Visit

variable {stage stage' : FieldRedirect} {hierarchy : TypeHierarchy} {pool pool' : ConstantPool}
  {cursor cursor' : Cursor} {code new : Code} {p after : Nat} {field : MemberRef}

/-- An instruction that accesses no field is passed. -/
theorem accessAt?_of_other {n : Nat} (hl : instructionLength cursor.code.bytes p = .ok n)
    (h : accessesField cursor.code.bytes p = false) :
    stage.accessAt? hierarchy ⟨pool, cursor⟩ p = .ok none := by
  obtain ⟨op, byte, -⟩ := (instructionLength_eq_ok_iff.mp hl).1.claimedLength
  have hop : cursor.byteAt p = .ok op := Cursor.require_eq_ok_iff.mpr byte
  have haccess : Opcode.isFieldAccess op = false := by
    unfold accessesField at h
    rwa [byte] at h
  unfold accessAt?
  rw [hop, ok_bind, haccess]
  rfl

/-- An instruction that refers to a field is redirected if the redirection concerns the
field. -/
theorem accessAt?_of_refersTo (h : RefersTo cursor.code.bytes pool p field) :
    stage.accessAt? hierarchy ⟨pool, cursor⟩ p =
      .ok (if stage.concerns hierarchy field then some field else none) := by
  obtain ⟨op, byte, haccess⟩ := accessesField_eq_true_iff.mp h.access
  obtain ⟨i, hi, hfield⟩ := h.operand
  have hop : cursor.byteAt p = .ok op := Cursor.require_eq_ok_iff.mpr byte
  have hoperand : cursor.u16At (p + 1) = .ok i := Cursor.require_eq_ok_iff.mpr hi
  unfold accessAt?
  rw [hop, ok_bind, haccess]
  simp only [Bool.not_true, Bool.false_eq_true, if_false, hoperand, ok_bind, hfield]
  rfl

/-- An access that is looked at refers to a field. -/
theorem exists_refersTo_of_accessAt? {found : Option MemberRef}
    (h : stage.accessAt? hierarchy ⟨pool, cursor⟩ p = .ok found)
    (haccess : accessesField cursor.code.bytes p = true) :
    ∃ field, RefersTo cursor.code.bytes pool p field := by
  obtain ⟨op, hop, h⟩ := bind_eq_ok_iff.mp h
  obtain ⟨op', byte, hfield⟩ := accessesField_eq_true_iff.mp haccess
  cases (Cursor.require_eq_ok_iff.mp hop).symm.trans byte
  rw [hfield] at h
  obtain ⟨i, hi, h⟩ := bind_eq_ok_iff.mp h
  obtain ⟨field, hresolved, -⟩ := bind_eq_ok_iff.mp h
  exact ⟨field, haccess, i, Cursor.require_eq_ok_iff.mp hi, hresolved⟩

/-- An access that is to be redirected refers to the field that is found. -/
theorem refersTo_of_accessAt? (h : stage.accessAt? hierarchy ⟨pool, cursor⟩ p = .ok (some field)) :
    RefersTo cursor.code.bytes pool p field ∧ stage.concerns hierarchy field = true := by
  have haccess : accessesField cursor.code.bytes p = true :=
    accessesField_eq_true_iff.mpr (isFieldAccess_of_accessAt? h)
  obtain ⟨found, refers⟩ := exists_refersTo_of_accessAt? h haccess
  rw [accessAt?_of_refersTo refers] at h
  cases hconcerns : stage.concerns hierarchy found with
  | false =>
    rw [hconcerns] at h
    cases h
  | true =>
    rw [hconcerns] at h
    cases h
    exact ⟨refers, hconcerns⟩

/-- An instruction that is not to be redirected is passed. -/
theorem Step.of_accessAt?_eq_none
    (h : stage.accessAt? hierarchy ⟨pool, cursor⟩ p = .ok none) :
    Step stage hierarchy pool cursor.code p stage pool cursor.code := by
  cases haccess : accessesField cursor.code.bytes p with
  | false => exact .other haccess
  | true =>
    obtain ⟨field, refers⟩ := exists_refersTo_of_accessAt? h haccess
    rw [accessAt?_of_refersTo refers] at h
    cases hconcerns : stage.concerns hierarchy field with
    | false => exact .passed refers hconcerns
    | true =>
      rw [hconcerns] at h
      cases h

/-- A visit that succeeds makes a step, and stays where it is. -/
theorem step_of_visit
    (h : (Stage.visit hierarchy p).runOn (stage, ⟨pool, cursor⟩) =
      (.ok after, stage', ⟨pool', cursor'⟩)) :
    after = p ∧ cursor'.position = cursor.position ∧
      Step stage hierarchy pool cursor.code p stage' pool' cursor'.code := by
  have hvisit : (redirectAccess hierarchy p).runOn (stage, ⟨pool, cursor⟩) =
    (.ok after, stage', ⟨pool', cursor'⟩) := h
  unfold redirectAccess Edit.runOn at hvisit
  simp only [ExceptT.mk, ExceptT.run] at hvisit
  split at hvisit
  · cases hvisit
  · next hnone =>
    obtain ⟨hafter, hvisit⟩ := Prod.mk.inj hvisit
    cases hafter
    cases hvisit
    exact ⟨rfl, rfl, .of_accessAt?_eq_none hnone⟩
  next field hsome =>
  obtain ⟨refers, hconcerns⟩ := refersTo_of_accessAt? hsome
  split at hvisit
  · cases hvisit
  next i stage₁ pool₁ htarget =>
  rcases hwrite : Cursor.writeU16 (p + 1) i cursor with ⟨outcome, cursor₁⟩
  rw [hwrite] at hvisit
  cases outcome with
  | error e => cases hvisit
  | ok u =>
    cases hvisit
    obtain ⟨hroom, rfl⟩ := Cursor.overwrite_of_writeU16 hwrite
    exact ⟨rfl, rfl, .redirected refers hconcerns htarget hroom⟩

/-- A step adds to the pool. -/
theorem Step.grows (step : Step stage hierarchy pool code p stage' pool' new) :
    pool.Grows pool' := by
  cases step with
  | other | passed => exact .refl
  | @redirected field _ _ _ _ _ target _ =>
    have hgrows := stage.grows_targetIndex field.descriptor pool
    rwa [target] at hgrows

/-- A step changes the operand of its instruction at most. -/
theorem Step.sameButFields (step : Step stage hierarchy pool code p stage' pool' new) :
    code.SameButFields new [p] := by
  cases step with
  | other | passed => exact .refl ..
  | redirected refers =>
    refine ⟨rfl, size_overwrite .., fun j hj => getElem?_overwrite_of_outside ?_⟩
    exact hj p List.mem_cons_self refers.access

/-- A step leaves the length of its instruction as it is. -/
theorem Step.instructionLength {n : Nat}
    (step : Step stage hierarchy pool code p stage' pool' new)
    (hl : instructionLength code.bytes p = .ok n) : instructionLength new.bytes p = .ok n := by
  have same := step.sameButFields
  refine instructionLength_of_operand hl same.size fun j _ hother => ?_
  refine same.bytes (p + j) fun q hq haccess => .inl ?_
  cases List.mem_singleton.mp hq
  have hzero := hother haccess
  omega

/-- A visit to an access needs the field. -/
theorem Step.exists_refersTo (step : Step stage hierarchy pool code p stage' pool' new)
    (haccess : accessesField code.bytes p = true) : ∃ field, RefersTo code.bytes pool p field := by
  cases step with
  | other h => cases h.symm.trans haccess
  | passed refers => exact ⟨_, refers⟩
  | redirected refers => exact ⟨_, refers⟩

/-- A step that can be made is what a visit does. -/
theorem visit_of_step {n : Nat} (step : Step stage hierarchy pool cursor.code p stage' pool' new)
    (hl : instructionLength cursor.code.bytes p = .ok n) :
    (Stage.visit hierarchy p).runOn (stage, (⟨pool, cursor⟩ : Workbench)) =
      (.ok p, stage', ⟨pool', { cursor with code := new }⟩) := by
  show (redirectAccess hierarchy p).runOn (stage, ⟨pool, cursor⟩) = _
  unfold redirectAccess Edit.runOn
  simp only [ExceptT.mk, ExceptT.run]
  cases step with
  | other haccess => rw [accessAt?_of_other hl haccess]
  | passed refers concerns =>
    rw [accessAt?_of_refersTo refers, concerns]
    rfl
  | @redirected field i stage' pool' refers concerns target room =>
    have hwrite : Cursor.writeU16 (p + 1) i cursor = (.ok (), { cursor with
        code := { cursor.code with
          bytes := overwrite cursor.code.bytes (p + 1) (Codec.bytesOfU16 i) } }) :=
      Cursor.runOn_write_eq_ok_iff.mpr ⟨room, rfl⟩
    rw [accessAt?_of_refersTo refers, concerns]
    simp only [if_true, target]
    rw [hwrite]
    rfl

end Visit

/-! ## Runs over a body -/

/-- What a row of stages does to one instruction, if they all succeed. -/
inductive Pass (hierarchy : TypeHierarchy) (p : Nat) :
    Chain FieldRedirect → ConstantPool → Code →
      Chain FieldRedirect → ConstantPool → Code → Prop where
  /-- There is no stage left. -/
  | done (pool : ConstantPool) (code : Code) : Pass hierarchy p [] pool code [] pool code
  /-- A stage makes a step, and the others follow. -/
  | step {stage stage' : FieldRedirect} {stages stages' : Chain FieldRedirect}
      {pool mid pool' : ConstantPool} {code between new : Code}
      (first : Step stage hierarchy pool code p stage' mid between)
      (later : Pass hierarchy p stages mid between stages' pool' new) :
      Pass hierarchy p (stage :: stages) pool code (stage' :: stages') pool' new

/-- What a row of stages does to the instructions of a body, one after the other, if
they all succeed. -/
inductive Trail (hierarchy : TypeHierarchy) :
    List Nat → Chain FieldRedirect → ConstantPool → Code →
      Chain FieldRedirect → ConstantPool → Code → Prop where
  /-- There is no instruction left. -/
  | done (stages : Chain FieldRedirect) (pool : ConstantPool) (code : Code) :
      Trail hierarchy [] stages pool code stages pool code
  /-- The next instruction is taken through the stages, and the others follow. -/
  | round {p n : Nat} {starts : List Nat} {stages between stages' : Chain FieldRedirect}
      {pool mid pool' : ConstantPool} {code changed new : Code}
      (length : instructionLength code.bytes p = .ok n)
      (rest : Walk code.bytes (p + n) starts code.bytes.size)
      (pass : Pass hierarchy p stages pool code between mid changed)
      (later : Trail hierarchy starts between mid changed stages' pool' new) :
      Trail hierarchy (p :: starts) stages pool code stages' pool' new

section Runs

variable {hierarchy : TypeHierarchy} {stages stages' : Chain FieldRedirect}
  {pool pool' : ConstantPool} {code new : Code} {starts : List Nat} {p first n : Nat}

/-- A pass adds to the pool. -/
theorem Pass.grows (pass : Pass hierarchy p stages pool code stages' pool' new) :
    pool.Grows pool' := by
  induction pass with
  | done => exact .refl
  | step first _ ih => exact first.grows.trans ih

/-- A pass changes the operand of its instruction at most. -/
theorem Pass.sameButFields (pass : Pass hierarchy p stages pool code stages' pool' new) :
    code.SameButFields new [p] := by
  induction pass with
  | done => exact .refl ..
  | step first _ ih =>
    have hsame := first.sameButFields
    refine hsame.trans ih fun q hq => ?_
    cases List.mem_singleton.mp hq
    exact congrArg (Option.any Opcode.isFieldAccess)
      (hsame.bytes p fun q hq _ => .inl (by cases List.mem_singleton.mp hq; omega))

/-- Behind its instruction, a pass changes nothing. -/
theorem Pass.getElem?_eq (pass : Pass hierarchy p stages pool code stages' pool' new)
    (hl : instructionLength code.bytes p = .ok n) {j : Nat} (hj : p + n ≤ j) :
    new.bytes[j]? = code.bytes[j]? := by
  refine pass.sameButFields.bytes j fun q hq haccess => .inr ?_
  cases List.mem_singleton.mp hq
  cases length_of_accessesField haccess hl
  exact hj

/-- A pass leaves the walk over the later instructions as it is. -/
theorem Pass.walk_iff (pass : Pass hierarchy p stages pool code stages' pool' new)
    (hl : instructionLength code.bytes p = .ok n) :
    Walk new.bytes (p + n) starts new.bytes.size ↔
      Walk code.bytes (p + n) starts code.bytes.size := by
  rw [pass.sameButFields.size]
  exact ⟨fun walk => walk.of_bytes fun j hj _ => (pass.getElem?_eq hl hj).symm,
    fun walk => walk.of_bytes fun j hj _ => pass.getElem?_eq hl hj⟩

/-- A run adds to the pool. -/
theorem Trail.grows (trail : Trail hierarchy starts stages pool code stages' pool' new) :
    pool.Grows pool' := by
  induction trail with
  | done => exact .refl
  | round _ _ pass _ ih => exact pass.grows.trans ih

/-- A run changes the operands of accesses at most. -/
theorem Trail.sameButFields (trail : Trail hierarchy starts stages pool code stages' pool' new) :
    code.SameButFields new starts := by
  induction trail with
  | done => exact .refl ..
  | @round p n starts _ _ _ _ _ _ code _ _ hl rest pass _ ih =>
    have hfirst : code.SameButFields _ (p :: starts) := pass.sameButFields.mono (by simp)
    exact hfirst.trans (ih.mono fun q hq => List.mem_cons_of_mem p hq)
      fun q hq => hfirst.accessesField_eq (.step hl rest) hq

/-- The first instruction of a run stays as the pass through the stages leaves it. -/
theorem Trail.getElem?_eq (trail : Trail hierarchy starts stages pool code stages' pool' new)
    (walk : Walk code.bytes first starts code.bytes.size) {j : Nat} (hj : j < first) :
    new.bytes[j]? = code.bytes[j]? := by
  refine trail.sameButFields.bytes j fun q hq _ => .inl ?_
  have hbounds := walk.mem_bounds hq
  omega

/-- A run of one stage or more needs the field of every access. -/
theorem Trail.exists_refersTo (trail : Trail hierarchy starts stages pool code stages' pool' new)
    (hstages : stages ≠ []) (hp : p ∈ starts) (haccess : accessesField code.bytes p = true) :
    ∃ field, RefersTo code.bytes pool' p field := by
  induction trail with
  | done => cases hp
  | @round q n starts stages between stages' pool mid pool' code changed new hl rest pass later
      ih =>
    have hgrows := pass.grows.trans later.grows
    cases pass with
    | done => exact absurd rfl hstages
    | step step others =>
      rcases List.mem_cons.mp hp with rfl | hp
      · obtain ⟨field, refers⟩ := step.exists_refersTo haccess
        exact ⟨field, refers.grows hgrows⟩
      · have hbytes : ∀ j < 3, code.bytes[p + j]? = changed.bytes[p + j]? := fun j _ => by
          have hlater := rest.mem_bounds hp
          exact ((Pass.step step others).getElem?_eq hl (by omega)).symm
        have hsame : accessesField changed.bytes p = accessesField code.bytes p :=
          congrArg (Option.any Opcode.isFieldAccess) (hbytes 0 (by omega)).symm
        obtain ⟨field, refers⟩ := ih (by simp) hp (hsame.trans haccess)
        exact ⟨field, refers.congr hbytes⟩

/-- A pass through stages that succeeds is one of their steps. -/
theorem pass_of_passes {position moved : Nat} {bench last : Workbench}
    (passes : Chain.Passes hierarchy position stages bench moved stages' last) :
    moved = position ∧ last.cursor.position = bench.cursor.position ∧
      Pass hierarchy position stages bench.pool bench.cursor.code stages' last.pool
        last.cursor.code := by
  induction passes with
  | done position bench => exact ⟨rfl, rfl, .done _ _⟩
  | @visit position moved final stage stage' _ _ bench mid last h _ ih =>
    have hvisit : (Stage.visit hierarchy position).runOn (stage, ⟨bench.pool, bench.cursor⟩) =
      (.ok moved, stage', ⟨mid.pool, mid.cursor⟩) := h
    obtain ⟨rfl, hposition, step⟩ := step_of_visit hvisit
    obtain ⟨rfl, hlast, pass⟩ := ih
    exact ⟨rfl, hlast.trans hposition, .step step pass⟩

/-- A walk that succeeds, and has steps enough, is a run over all instructions of the
body. -/
theorem exists_trail_of_walk {steps : Nat} {cursor : Cursor} {last : Workbench}
    (hposition : cursor.position ≤ cursor.code.bytes.size)
    (hsteps : cursor.code.bytes.size < cursor.position + steps)
    (h : Chain.walk hierarchy steps stages ⟨pool, cursor⟩ = (.ok (), stages', last)) :
    ∃ starts, Walk cursor.code.bytes cursor.position starts cursor.code.bytes.size ∧
      Trail hierarchy starts stages pool cursor.code stages' last.pool last.cursor.code := by
  induction steps generalizing stages pool cursor with
  | zero => omega
  | succ steps ih =>
    unfold Chain.walk at h
    split at h
    · rw [Cursor.runOn_next] at h
      cases hl : instructionLength cursor.code.bytes cursor.position with
      | error e =>
        rw [hl] at h
        cases h
      | ok n =>
        simp only [hl] at h
        rcases hvisited : Chain.visitAt hierarchy cursor.position [] stages
          ⟨pool, { cursor with position := cursor.position + n }⟩ with ⟨outcome, mid, between⟩
        rw [hvisited] at h
        cases outcome with
        | error e => cases h
        | ok moved =>
          obtain ⟨mid', hmid, passes⟩ := Chain.passes_of_visitAt hvisited
          obtain rfl : mid = mid' := hmid
          obtain ⟨-, hnext, pass⟩ := pass_of_passes passes
          have hsize := pass.sameButFields.size
          have hone := one_le_instructionLength hl
          have hle := add_instructionLength_le hl
          obtain ⟨betweenPool, betweenCode, next⟩ := between
          dsimp only at hnext hsize pass
          subst hnext
          obtain ⟨starts, walk, trail⟩ := ih (by dsimp only; omega) (by dsimp only; omega) h
          have rest := (pass.walk_iff hl).mp walk
          exact ⟨_, .step hl rest, .round hl rest pass trail⟩
    · next hnext =>
      cases h
      have hend : cursor.code.bytes.size ≤ cursor.position :=
        Nat.le_of_not_lt fun hlt => hnext (decide_eq_true hlt)
      have hsize := Nat.le_antisymm hposition hend
      exact ⟨[], hsize ▸ .stop _, .done _ _ _⟩

/-- A pass that can be made is what visits by all stages do. -/
theorem visitAt_of_pass {done : Chain FieldRedirect} {position : Nat}
    (pass : Pass hierarchy p stages pool code stages' pool' new)
    (hl : instructionLength code.bytes p = .ok n) :
    Chain.visitAt hierarchy p done stages ⟨pool, ⟨code, position⟩⟩ =
      (.ok p, done.reverse ++ stages', ⟨pool', ⟨new, position⟩⟩) := by
  induction pass generalizing done with
  | done => rw [Chain.visitAt, List.append_nil]
  | @step stage stage' stages stages' pool mid pool' code between new first later ih =>
    have hvisit : (Stage.visit hierarchy p).runOn (stage, ⟨pool, ⟨code, position⟩⟩) = _ :=
      visit_of_step first hl
    rw [Chain.visitAt, hvisit]
    simp only
    rw [ih (first.instructionLength hl), List.reverse_cons, List.append_assoc]
    rfl

/-- A run that can be made is what a walk does that has steps enough. -/
theorem walk_of_trail (trail : Trail hierarchy starts stages pool code stages' pool' new)
    {first steps : Nat} (walk : Walk code.bytes first starts code.bytes.size)
    (hsteps : starts.length ≤ steps) :
    ∃ position, Chain.walk hierarchy (steps + 1) stages ⟨pool, ⟨code, first⟩⟩ =
      (.ok (), stages', ⟨pool', ⟨new, position⟩⟩) := by
  induction trail generalizing first steps with
  | done stages pool code =>
    have hend : code.bytes.size = first := walk.last_unique (.stop _)
    have hnone : Cursor.hasNext ⟨code, first⟩ = false := decide_eq_false (by dsimp only; omega)
    refine ⟨first, ?_⟩
    rw [Chain.walk, hnone]
    rfl
  | @round p n starts stages between stages' pool mid pool' code changed new hl rest pass _ ih =>
    rw [List.length_cons] at hsteps
    obtain ⟨steps, rfl⟩ : ∃ k, steps = k + 1 := ⟨steps - 1, by omega⟩
    cases walk.first_eq
    have hnext : Cursor.hasNext ⟨code, p⟩ = true := Cursor.hasNext_of_instructionLength hl
    obtain ⟨position, hrun⟩ := ih ((pass.walk_iff hl).mpr rest) (Nat.le_of_succ_le_succ hsteps)
    refine ⟨position, ?_⟩
    rw [Chain.walk, if_pos hnext, Cursor.runOn_next]
    simp only [hl]
    rw [visitAt_of_pass pass hl]
    exact hrun

/-- Redirections need no slots. -/
theorem runOn_reserve (stages : Chain FieldRedirect) (code : Code) :
    (Chain.reserve stages).runOn code = (.ok (), code) := by
  have hmax : ∀ stages : Chain FieldRedirect,
      (stages.map fun _ => (0 : UInt16)).foldl max 0 = 0 := fun stages => by
    induction stages with
    | nil => rfl
    | cons stage stages ih => exact ih
  have hadd : ∀ limit n, Chain.addLimited limit n 0 = .ok n := fun limit n => by
    have hfits : n.toNat + (0 : UInt16).toNat ≤ 65535 := Nat.le_of_lt_succ n.toNat_lt
    unfold Chain.addLimited
    rw [if_pos hfits, UInt16.add_zero]
  have hlocals : (stages.map Stage.extraLocals).foldl max 0 = 0 := hmax stages
  have hstack : (stages.map Stage.extraStack).foldl max 0 = 0 := hmax stages
  unfold Chain.reserve
  simp only [Edit.runOn_bind, Edit.runOn_get, Edit.runOn_lift, Edit.runOn_modify, hlocals, hstack,
    hadd]
  cases code
  rfl

/-- Redirections are run over a body by walking over it. -/
theorem runOn_applyToCode (hierarchy : TypeHierarchy) (stages : Chain FieldRedirect)
    (pool : ConstantPool) (code : Code) :
    (Chain.applyToCode hierarchy).runOn (stages, pool, code) =
      let run := Chain.walk hierarchy (Chain.stepsFor code) (stages.map (forgetOther pool))
        ⟨pool, .ofCode code⟩
      (run.1, run.2.1, run.2.2.pool, run.2.2.cursor.code) := by
  have hreset : stages.map (Stage.reset pool code) = stages.map (forgetOther pool) := rfl
  rw [Chain.runOn_applyToCode, hreset]
  rcases Chain.walk hierarchy (Chain.stepsFor code) (stages.map (forgetOther pool))
    ⟨pool, .ofCode code⟩ with ⟨outcome, stages', last⟩
  cases outcome with
  | error e => rfl
  | ok u =>
    have hclean : stages'.map Stage.clean = stages' := List.map_id stages'
    simp only [hclean, runOn_reserve]

/-- A run over a body succeeds exactly if the body is a row of instructions and the stages
can make their steps on all of them. -/
theorem applyToCode_eq_ok_iff :
    (Chain.applyToCode hierarchy).runOn (stages, pool, code) = (.ok (), stages', pool', new) ↔
      ∃ starts, Bytecode.starts code.bytes = .ok starts ∧
        Trail hierarchy starts (stages.map (forgetOther pool)) pool code stages' pool' new := by
  rw [runOn_applyToCode]
  constructor
  · intro h
    rcases hwalk : Chain.walk hierarchy (Chain.stepsFor code) (stages.map (forgetOther pool))
      ⟨pool, .ofCode code⟩ with ⟨outcome, stages₁, last⟩
    rw [hwalk] at h
    cases h
    have hposition : (Cursor.ofCode code).position ≤ (Cursor.ofCode code).code.bytes.size :=
      Nat.zero_le _
    have hsteps : code.bytes.size < 0 + Chain.stepsFor code := by
      unfold Chain.stepsFor
      omega
    obtain ⟨starts, walk, trail⟩ := exists_trail_of_walk hposition hsteps hwalk
    exact ⟨starts, starts_eq_ok_iff.mpr walk, trail⟩
  · rintro ⟨starts, hstarts, trail⟩
    have walk := starts_eq_ok_iff.mp hstarts
    have hlength := walk.add_length_starts_le
    have hsteps : starts.length ≤ max 65535 code.bytes.size := by omega
    obtain ⟨position, hrun⟩ := walk_of_trail trail walk hsteps
    unfold Chain.stepsFor Cursor.ofCode
    rw [hrun]

end Runs

end FieldRedirect

end JvmClass
