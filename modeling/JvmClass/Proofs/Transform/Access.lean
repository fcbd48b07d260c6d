import JvmClass.Proofs.ConstantPool.Interning
import JvmClass.Proofs.Transform.Chain

/-!
# Accesses to a redirected field

A redirection goes by class and name, and interns the new field with the
descriptor of the access that comes first. It remembers the index of the new
field, which stays right as long as the pool only grows, and which later accesses
get as well.
-/

namespace JvmClass.FieldRedirect

/-! ## Accesses -/

section Definitions

variable (stage : FieldRedirect) (hierarchy : TypeHierarchy)

/-- The field that the instruction at a position accesses, if it is the one to
be redirected. -/
def access? (pool : ConstantPool) (code : Code) (position : Nat) : Option MemberRef :=
  match stage.accessAt? hierarchy ⟨pool, .ofCode code⟩ position with
  | .ok found => found
  | .error _ => none

/-- The accesses to be redirected among some instructions, in order. -/
def accesses (pool : ConstantPool) (code : Code) (starts : List Nat) : List MemberRef :=
  starts.filterMap (stage.access? hierarchy pool code)

/-- An index leads to the new field, with some descriptor. -/
def LeadsToNew (pool : ConstantPool) (i : UInt16) (target : MemberRef) : Prop :=
  pool.field i = .ok target ∧ target.className = stage.newClass ∧ target.name = stage.newField

/-- What is remembered of a pool leads to the new field there. -/
def Remembers (pool : ConstantPool) : Prop :=
  ∀ id i, stage.cached = some (id, i) → id = pool.id → ∃ target, stage.LeadsToNew pool i target

/-- What is remembered is remembered of this pool. -/
def Settled (pool : ConstantPool) : Prop :=
  ∀ id i, stage.cached = some (id, i) → id = pool.id ∧ ∃ target, stage.LeadsToNew pool i target

/-- The descriptor that redirected accesses get: that of the remembered field,
or else that of the first one of them. -/
def keptDescriptor (pool : ConstantPool) (accesses : List MemberRef) : Option String :=
  match stage.cached with
  | some (_, i) => (pool.field i).toOption.map MemberRef.descriptor
  | none => accesses.head?.map MemberRef.descriptor

end Definitions

section Accesses

variable {stage : FieldRedirect} {hierarchy : TypeHierarchy} {pool pool' : ConstantPool}
  {code code' : Code} {cursor : Cursor} {p n : Nat} {i : UInt16}

/-- The new field stays where it is in a pool that grows. -/
theorem LeadsToNew.grows {target : MemberRef} (h : stage.LeadsToNew pool i target)
    (grows : pool.Grows pool') : stage.LeadsToNew pool' i target :=
  ⟨grows.memberOf h.1, h.2⟩

/-- What is remembered of a pool is right when it has grown. -/
theorem Settled.grows (h : stage.Settled pool) (grows : pool.Grows pool') :
    stage.Settled pool' := by
  intro id i hcached
  obtain ⟨hid, target, htarget⟩ := h id i hcached
  exact ⟨hid.trans grows.id_eq.1.symm, target, htarget.grows grows⟩

/-- A stage that has not been used remembers nothing wrong. -/
theorem remembers_of_fresh (h : stage.cached = none) (pool : ConstantPool) :
    stage.Remembers pool := by
  intro id i hcached
  cases h.symm.trans hcached

/-- There is nothing to be forgotten if no other pool is remembered. -/
theorem forgetOther_eq_self (h : ∀ id i, stage.cached = some (id, i) → id = pool.id) :
    stage.forgetOther pool = stage := by
  have hcached : (stage.forgetOther pool).cached = stage.cached := by
    refine Option.ext fun remembered => Option.filter_eq_some_iff.trans ?_
    exact and_iff_left_of_imp fun hremembered =>
      decide_eq_true (h remembered.1 remembered.2 hremembered)
  have hother : stage.forgetOther pool = { stage with cached := (stage.forgetOther pool).cached } :=
    rfl
  rw [hother, hcached]

/-- What is left after forgetting other pools is remembered of this one. -/
theorem Remembers.settled_forgetOther (h : stage.Remembers pool) :
    (stage.forgetOther pool).Settled pool := by
  intro id i hcached
  obtain ⟨hcached, hid⟩ := Option.filter_eq_some_iff.mp hcached
  have hid : id = pool.id := of_decide_eq_true hid
  exact ⟨hid, h id i hcached hid⟩

/-- What is remembered of a pool is right there later, and nothing is remembered
of other pools. -/
theorem Settled.remembers {other : ConstantPool} (h : stage.Settled pool)
    (hother : other.id = pool.id → pool.Grows other) : stage.Remembers other := by
  intro id i hcached hid
  obtain ⟨hpool, target, htarget⟩ := h id i hcached
  exact ⟨target, htarget.grows (hother (hid.symm.trans hpool))⟩

/-- Having remembered an index of the new field, a stage remembers the right
one. -/
theorem LeadsToNew.settled {target : MemberRef} (h : stage.LeadsToNew pool i target) :
    Settled { stage with cached := some (pool.id, i) } pool := by
  intro id j hcached
  cases hcached
  exact ⟨rfl, target, h⟩

/-- The descriptor that accesses get does not change when the pool grows. -/
theorem keptDescriptor_grows (grows : pool.Grows pool') {accesses : List MemberRef}
    {descriptor : String} (h : stage.keptDescriptor pool accesses = some descriptor) :
    stage.keptDescriptor pool' accesses = some descriptor := by
  unfold keptDescriptor at h ⊢
  split at h
  · next id i _ =>
    cases hfield : pool.field i with
    | error e =>
      rw [hfield] at h
      cases h
    | ok field =>
      rw [hfield] at h
      have hlater : pool'.field i = .ok field := grows.memberOf hfield
      rw [hlater]
      exact h
  · exact h

/-- Whether an access is to be redirected does not change when the pool grows. -/
theorem accessAt?_grows (grows : pool.Grows pool') {found : Option MemberRef}
    (h : stage.accessAt? hierarchy ⟨pool, cursor⟩ p = .ok found) :
    stage.accessAt? hierarchy ⟨pool', cursor⟩ p = .ok found := by
  obtain ⟨op, hop, h⟩ := bind_eq_ok_iff.mp h
  refine bind_eq_ok_iff.mpr ⟨op, hop, ?_⟩
  by_cases haccess : Opcode.isFieldAccess op = true
  · rw [haccess] at h ⊢
    obtain ⟨j, hj, h⟩ := bind_eq_ok_iff.mp h
    obtain ⟨field, hfield, h⟩ := bind_eq_ok_iff.mp h
    exact bind_eq_ok_iff.mpr ⟨j, hj, bind_eq_ok_iff.mpr ⟨field, grows.memberOf hfield, h⟩⟩
  · rw [Bool.eq_false_iff.mpr haccess] at h ⊢
    exact h

/-- Only an instruction that accesses a field is redirected. -/
theorem isFieldAccess_of_accessAt? {field : MemberRef}
    (h : stage.accessAt? hierarchy ⟨pool, cursor⟩ p = .ok (some field)) :
    ∃ op, cursor.code.bytes[p]? = some op ∧ Opcode.isFieldAccess op = true := by
  obtain ⟨op, hop, h⟩ := bind_eq_ok_iff.mp h
  refine ⟨op, Cursor.require_eq_ok_iff.mp hop, ?_⟩
  by_contra haccess
  rw [Bool.eq_false_iff.mpr haccess] at h
  cases h

/-- An access to be redirected is an instruction of three bytes. -/
theorem length_of_accessAt? {field : MemberRef}
    (h : stage.accessAt? hierarchy ⟨pool, cursor⟩ p = .ok (some field))
    (hl : Bytecode.instructionLength cursor.code.bytes p = .ok n) : n = 3 := by
  obtain ⟨op, byte, haccess⟩ := isFieldAccess_of_accessAt? h
  obtain ⟨op', byte', hclaimed⟩ :=
    (Bytecode.instructionLength_eq_ok_iff.mp hl).1.claimedLength
  cases byte.symm.trans byte'
  unfold Bytecode.claimedLength at hclaimed
  rw [Layout.of_isFieldAccess haccess] at hclaimed
  cases hclaimed
  rfl

/-- The access that is found, if there is no failure. -/
theorem access?_eq {found : Option MemberRef}
    (h : stage.accessAt? hierarchy ⟨pool, .ofCode code⟩ p = .ok found) :
    stage.access? hierarchy pool code p = found := by
  unfold access?
  rw [h]

/-- Which field an instruction accesses depends on its own three bytes only. -/
theorem access?_congr (h : ∀ j < 3, code'.bytes[p + j]? = code.bytes[p + j]?) :
    stage.access? hierarchy pool code' p = stage.access? hierarchy pool code p := by
  have hop : (Cursor.ofCode code').byteAt p = (Cursor.ofCode code).byteAt p :=
    Cursor.require_congr (h 0 (by omega))
  have hoperand : (Cursor.ofCode code').u16At (p + 1) = (Cursor.ofCode code).u16At (p + 1) := by
    refine Cursor.require_congr (Bytecode.u16At?_congr fun j hj => ?_)
    rw [Nat.add_assoc]
    exact h (1 + j) (by omega)
  unfold access? accessAt?
  rw [hop, hoperand]

end Accesses

/-! ## One visit -/

section Visit

variable {stage stage' : FieldRedirect} {hierarchy : TypeHierarchy}
  {pool pool' : ConstantPool} {i : UInt16}

/-- The index of the new field leads to it, with the descriptor that was asked
for. -/
theorem leadsToNew_of_internTarget (hpool : pool.Consistent) {descriptor : String}
    (h : (stage.internTarget descriptor).runOn pool = (.ok i, pool')) :
    ∃ target, stage.LeadsToNew pool' i target ∧ target.descriptor = descriptor := by
  obtain ⟨n, first, hpair, h⟩ := (Edit.runOn_bind_eq_ok_iff pool).mp h
  obtain ⟨c, second, howner, hmember⟩ := (Edit.runOn_bind_eq_ok_iff first).mp h
  have hfirst := (ConstantPool.onlyAdds_internNameAndType _ _).grows_of_eq hpair
  have hsecond := (ConstantPool.onlyAdds_internSymbol .classInfo _).grows_of_eq howner
  have hpool₁ := hfirst.consistent hpool
  have hpool₂ := hsecond.consistent hpool₁
  obtain ⟨hname, hdescriptor⟩ := ConstantPool.names_of_internNameAndType hpool hpair
  have hclass : second.className c = .ok stage.newClass :=
    ConstantPool.symbol_of_internSymbol hpool₁ howner
  have hfield := ConstantPool.memberOf_of_intern hpool₂ hclass (hsecond.nameOf hname)
    (hsecond.descriptorOf hdescriptor) hmember
  exact ⟨_, ⟨hfield, rfl, rfl⟩, rfl⟩

/-- An index for an access leads to the new field, with the descriptor that this
access and the later ones get, and is remembered from then on. -/
theorem targetIndex_leadsToNew (hpool : pool.Consistent) (hstage : stage.Settled pool)
    (field : MemberRef)
    (h : stage.targetIndex field.descriptor pool = (.ok i, stage', pool')) :
    stage' = { stage with cached := some (pool'.id, i) } ∧ pool.Grows pool' ∧
      ∃ target, stage.LeadsToNew pool' i target ∧
        ∀ later, stage.keptDescriptor pool' (field :: later) = some target.descriptor := by
  have hgrows := stage.grows_targetIndex field.descriptor pool
  rw [h] at hgrows
  unfold targetIndex at h
  unfold keptDescriptor
  cases hcached : stage.cached with
  | some remembered =>
    obtain ⟨id, j⟩ := remembered
    rw [hcached] at h
    cases h
    obtain ⟨rfl, target, htarget⟩ := hstage id i hcached
    have hkept : (pool.field i).toOption.map MemberRef.descriptor = some target.descriptor := by
      rw [htarget.1]
      rfl
    refine ⟨?_, hgrows, target, htarget, fun _ => hkept⟩
    rw [← hcached]
  | none =>
    rw [hcached] at h
    simp only at h
    split at h
    · next j next hrun =>
      cases h
      obtain ⟨target, htarget, hdescriptor⟩ := leadsToNew_of_internTarget hpool hrun
      refine ⟨rfl, hgrows, target, htarget, fun _ => ?_⟩
      rw [hdescriptor]
      rfl
    · cases h

/-- A stage that gets no index stays as it is. -/
theorem eq_of_targetIndex_eq_error {descriptor : String} {e : Error}
    (h : stage.targetIndex descriptor pool = (.error e, stage', pool')) : stage' = stage := by
  unfold targetIndex at h
  split at h
  · cases h
  · split at h
    · cases h
    · cases h
      rfl

/-- What a visit that succeeds has done: nothing, if the instruction is no access
to the field, or else it has put the index of the new field into it. -/
inductive Visited (stage : FieldRedirect) (hierarchy : TypeHierarchy) (pool : ConstantPool)
    (code : Code) (position : Nat) : FieldRedirect → ConstantPool → Code → Prop where
  /-- The instruction is passed. -/
  | passed (haccess : stage.accessAt? hierarchy ⟨pool, .ofCode code⟩ position = .ok none) :
      Visited stage hierarchy pool code position stage pool code
  /-- The instruction is redirected. -/
  | redirected {field target : MemberRef} {i : UInt16} {pool' : ConstantPool}
      (haccess : stage.accessAt? hierarchy ⟨pool, .ofCode code⟩ position = .ok (some field))
      (grows : pool.Grows pool') (leads : stage.LeadsToNew pool' i target)
      (kept : ∀ later, stage.keptDescriptor pool' (field :: later) = some target.descriptor)
      (room : position + 3 ≤ code.bytes.size) :
      Visited stage hierarchy pool code position { stage with cached := some (pool'.id, i) } pool'
        { code with bytes := Bytecode.overwrite code.bytes (position + 1) (Codec.bytesOfU16 i) }

/-- A visit that succeeds stays where it is. -/
theorem visited_of_redirectAccess (hpool : pool.Consistent) (hstage : stage.Settled pool)
    {position after : Nat} {cursor cursor' : Cursor}
    (h : (redirectAccess hierarchy position).runOn (stage, ⟨pool, cursor⟩) =
      (.ok after, stage', ⟨pool', cursor'⟩)) :
    cursor'.position = cursor.position ∧
      Visited stage hierarchy pool cursor.code position stage' pool' cursor'.code := by
  unfold redirectAccess Edit.runOn at h
  simp only [ExceptT.mk, ExceptT.run] at h
  split at h
  · cases h
  · next haccess =>
    cases h
    exact ⟨rfl, .passed haccess⟩
  next field haccess =>
  split at h
  · cases h
  next i stage₁ pool₁ htarget =>
  obtain ⟨rfl, hgrows, target, hleads, hkept⟩ := targetIndex_leadsToNew hpool hstage field htarget
  rcases hwrite : Cursor.writeU16 (position + 1) i cursor with ⟨outcome, cursor₁⟩
  rw [hwrite] at h
  cases outcome with
  | error e => cases h
  | ok u =>
    cases h
    obtain ⟨hroom, rfl⟩ := Cursor.overwrite_of_writeU16 hwrite
    exact ⟨rfl, .redirected haccess hgrows hleads hkept hroom⟩

/-- Whatever a visit does, and whether it succeeds or not, what is remembered
afterwards is right. -/
theorem settled_redirectAccess (hpool : pool.Consistent) (hstage : stage.Settled pool)
    (hierarchy : TypeHierarchy) (position : Nat) (cursor : Cursor) :
    ((redirectAccess hierarchy position).runOn (stage, ⟨pool, cursor⟩)).2.1.Settled
      ((redirectAccess hierarchy position).runOn (stage, ⟨pool, cursor⟩)).2.2.pool := by
  unfold redirectAccess Edit.runOn
  simp only [ExceptT.mk, ExceptT.run]
  split
  · exact hstage
  · exact hstage
  next field _ =>
  split
  · next e stage₁ pool₁ htarget =>
    have hgrows := stage.grows_targetIndex field.descriptor pool
    rw [htarget] at hgrows
    cases eq_of_targetIndex_eq_error htarget
    exact hstage.grows hgrows
  · next i stage₁ pool₁ htarget =>
    obtain ⟨rfl, -, target, hleads, -⟩ := targetIndex_leadsToNew hpool hstage field htarget
    exact hleads.settled

end Visit

end JvmClass.FieldRedirect
