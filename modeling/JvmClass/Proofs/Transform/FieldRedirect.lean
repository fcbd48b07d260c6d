import JvmClass.Proofs.Transform.Access

/-!
# Where redirected accesses lead

A run over a body writes one index into all accesses to the field, whatever
descriptor an access had. So an access keeps its descriptor exactly if it is that
of the new field that was found first.
-/

namespace JvmClass.FieldRedirect

/-! ## A whole body -/

section Body

variable {stage : FieldRedirect} {hierarchy : TypeHierarchy} {pool pool' : ConstantPool}
  {code new : Code} {starts : List Nat}

/-- Whether a walk succeeds or not, what is remembered afterwards is right. -/
theorem settled_walk (hierarchy : TypeHierarchy) (steps : Nat) (cursor : Cursor)
    (hpool : pool.Consistent) (hstage : stage.Settled pool) :
    ∃ stage', (Chain.walk hierarchy steps [stage] ⟨pool, cursor⟩).2.1 = [stage'] ∧
      stage'.Settled (Chain.walk hierarchy steps [stage] ⟨pool, cursor⟩).2.2.pool := by
  induction steps generalizing stage pool cursor with
  | zero => exact ⟨stage, rfl, hstage⟩
  | succ steps ih =>
    rw [Chain.walk_singleton]
    split
    · cases Bytecode.instructionLength cursor.code.bytes cursor.position with
      | error e => exact ⟨stage, rfl, hstage⟩
      | ok length =>
        let next : Cursor := { cursor with position := cursor.position + length }
        have hgrows := (leadsOn hierarchy cursor.position stage ⟨pool, next⟩).grows
        have hsettled := settled_redirectAccess hpool hstage hierarchy cursor.position next
        simp only
        rcases hvisit : (Stage.visit hierarchy cursor.position).runOn (stage, ⟨pool, next⟩) with
          ⟨outcome, stage₁, bench₁⟩
        have hrun : (redirectAccess hierarchy cursor.position).runOn (stage, ⟨pool, next⟩) =
          (outcome, stage₁, bench₁) := hvisit
        rw [hvisit] at hgrows
        rw [hrun] at hsettled
        cases outcome with
        | error e => exact ⟨stage₁, rfl, hsettled⟩
        | ok p => exact ih _ (hgrows.consistent hpool) hsettled
    · exact ⟨stage, rfl, hstage⟩

/-- What a redirection has done to a body, seen from the pool that it leaves. -/
structure Redirected (stage : FieldRedirect) (hierarchy : TypeHierarchy) (pool : ConstantPool)
    (code : Code) (starts : List Nat) (new : Code) : Prop where
  /-- No other bytes have changed than the operands of the redirected accesses. -/
  outside : ∀ i, (∀ p ∈ starts, ∀ field, stage.access? hierarchy pool code p = some field →
      i < p + 1 ∨ p + 3 ≤ i) → new.bytes[i]? = code.bytes[i]?
  /-- Every redirected access refers to the new field, with the descriptor that
  all of them get. -/
  leads : ∀ p ∈ starts, ∀ field, stage.access? hierarchy pool code p = some field →
    ∃ i target, Bytecode.u16At? new.bytes (p + 1) = some i ∧ stage.LeadsToNew pool i target ∧
      stage.keptDescriptor pool (stage.accesses hierarchy pool code starts) =
        some target.descriptor

/-- Only the bytes of the new body matter. -/
theorem Redirected.congr {new' : Code}
    (redirected : Redirected stage hierarchy pool code starts new) (h : new'.bytes = new.bytes) :
    Redirected stage hierarchy pool code starts new' := by
  constructor
  · rw [h]
    exact redirected.outside
  · rw [h]
    exact redirected.leads

/-- There is nothing to be redirected without instructions. -/
theorem Redirected.nil : Redirected stage hierarchy pool code [] code :=
  ⟨fun _ _ => rfl, fun _ hp => absurd hp List.not_mem_nil⟩

/-- An instruction that is passed changes nothing. -/
theorem Redirected.cons_passed {p : Nat} (rest : Redirected stage hierarchy pool code starts new)
    (haccess : stage.access? hierarchy pool code p = none) :
    Redirected stage hierarchy pool code (p :: starts) new := by
  have haccesses : stage.accesses hierarchy pool code (p :: starts) =
      stage.accesses hierarchy pool code starts := List.filterMap_cons_none haccess
  constructor
  · intro i hi
    exact rest.outside i fun q hq => hi q (List.mem_cons_of_mem p hq)
  · intro q hq field hfield
    rw [haccesses]
    rcases List.mem_cons.mp hq with rfl | hq
    · cases haccess.symm.trans hfield
    · exact rest.leads q hq field hfield

/-- An instruction that is redirected gets the descriptor that the later ones get
as well. -/
theorem Redirected.cons_redirected {p id : Nat} {i : UInt16} {field target : MemberRef}
    (rest : Redirected { stage with cached := some (id, i) } hierarchy pool
      { code with bytes := Bytecode.overwrite code.bytes (p + 1) (Codec.bytesOfU16 i) } starts new)
    (haccess : stage.access? hierarchy pool code p = some field)
    (leads : stage.LeadsToNew pool i target)
    (kept : ∀ later, stage.keptDescriptor pool (field :: later) = some target.descriptor)
    (room : p + 3 ≤ code.bytes.size) (hlater : ∀ q ∈ starts, p + 3 ≤ q) :
    Redirected stage hierarchy pool code (p :: starts) new := by
  have hlength : (Codec.bytesOfU16 i).length = 2 := rfl
  have haccesses : stage.accesses hierarchy pool code (p :: starts) =
      field :: stage.accesses hierarchy pool code starts := List.filterMap_cons_some haccess
  -- the later instructions are not touched, and name the same fields as before
  have hsame : ∀ q ∈ starts, FieldRedirect.access? { stage with cached := some (id, i) } hierarchy
      pool { code with bytes := Bytecode.overwrite code.bytes (p + 1) (Codec.bytesOfU16 i) } q =
        stage.access? hierarchy pool code q := fun q hq => by
    have hq := hlater q hq
    exact access?_congr fun j _ => Bytecode.getElem?_overwrite_of_outside (by omega)
  constructor
  · intro j hj
    have hown := hj p List.mem_cons_self field haccess
    rw [rest.outside j fun q hq other hother =>
      hj q (List.mem_cons_of_mem p hq) other ((hsame q hq).symm.trans hother)]
    exact Bytecode.getElem?_overwrite_of_outside (by omega)
  · intro q hq other hother
    rw [haccesses]
    rcases List.mem_cons.mp hq with rfl | hq
    · refine ⟨i, target, Bytecode.u16At?_of_bytes fun j hj => ?_, leads, kept _⟩
      rw [rest.outside (q + 1 + j) fun r hr _ _ => by have := hlater r hr; omega]
      exact Bytecode.getElem?_overwrite_of_inside hj (by omega)
    · obtain ⟨k, found, hk, hfound, hkept⟩ := rest.leads q hq other ((hsame q hq).trans hother)
      have hdescriptor : (pool.field i).toOption.map MemberRef.descriptor =
          some found.descriptor := hkept
      rw [leads.1] at hdescriptor
      exact ⟨k, found, hk, hfound, (kept _).trans hdescriptor⟩

/-- A walk that succeeds redirects all accesses that it passes. -/
theorem redirected_of_walk (cursor : Cursor) (hpool : pool.Consistent)
    (hstage : stage.Settled pool) {cursor' : Cursor} {steps : Nat} {stages' : Chain FieldRedirect}
    (walk : Bytecode.Walk cursor.code.bytes cursor.position starts cursor.code.bytes.size)
    (hsteps : starts.length ≤ steps)
    (h : Chain.walk hierarchy (steps + 1) [stage] ⟨pool, cursor⟩ =
      (.ok (), stages', ⟨pool', cursor'⟩)) :
    Redirected stage hierarchy pool' cursor.code starts cursor'.code := by
  induction starts generalizing stage pool cursor steps with
  | nil =>
    have hend : cursor.code.bytes.size = cursor.position := walk.last_unique (.stop _)
    have hnone : cursor.hasNext = false := decide_eq_false (by omega)
    rw [Chain.walk_singleton, hnone] at h
    cases h
    exact .nil
  | cons p starts ih =>
    rw [List.length_cons] at hsteps
    obtain ⟨steps, rfl⟩ : ∃ k, steps = k + 1 := ⟨steps - 1, by omega⟩
    obtain ⟨length, hl, rest⟩ := walk.exists_rest
    cases walk.first_eq
    obtain ⟨after, stage₁, ⟨pool₁, ⟨code₁, position₁⟩⟩, hvisit, h⟩ :=
      Chain.exists_visit_of_walk hierarchy hl h
    have hlater : pool₁.Grows pool' := by
      have hleads := Chain.leadsTo_walk leadsOn hierarchy (steps + 1) [stage₁]
        ⟨pool₁, ⟨code₁, position₁⟩⟩
      rw [h] at hleads
      exact hleads.grows
    have hcount : starts.length ≤ steps := Nat.le_of_succ_le_succ hsteps
    obtain ⟨hposition, visited⟩ := visited_of_redirectAccess hpool hstage hvisit
    cases hposition
    cases visited with
    | passed haccess =>
      have redirected := ih _ hpool hstage rest hcount h
      exact redirected.cons_passed (access?_eq (accessAt?_grows hlater haccess))
    | @redirected field target i _ haccess grows leads kept room =>
      cases length_of_accessAt? haccess hl
      have hstarts : ∀ q ∈ starts, cursor.position + 3 ≤ q := fun q hq => (rest.mem_bounds hq).1
      have hlength : cursor.position + 1 + (Codec.bytesOfU16 i).length ≤ cursor.position + 3 :=
        Nat.le_refl _
      have redirected := ih _ (grows.consistent hpool) leads.settled
        (rest.overwrite_before hlength) hcount h
      exact redirected.cons_redirected (access?_eq (accessAt?_grows (grows.trans hlater) haccess))
        (leads.grows hlater) (fun later => keptDescriptor_grows hlater (kept later)) room hstarts

/-- A redirection that succeeds has walked over the whole body. -/
theorem redirected_of_applyToCode {stages' : Chain FieldRedirect} (hpool : pool.Consistent)
    (hstage : (stage.forgetOther pool).Settled pool)
    (hstarts : Bytecode.starts code.bytes = .ok starts)
    (h : (Chain.applyToCode hierarchy).runOn ([stage], pool, code) =
      (.ok (), stages', pool', new)) :
    Redirected (stage.forgetOther pool) hierarchy pool' code starts new := by
  have walk := Bytecode.starts_eq_ok_iff.mp hstarts
  have hsteps : starts.length ≤ max 65535 code.bytes.size := by
    have hlength := walk.add_length_starts_le
    omega
  rw [Chain.runOn_applyToCode] at h
  rcases hwalk : Chain.walk hierarchy (Chain.stepsFor code)
    ([stage].map (Stage.reset pool code)) ⟨pool, .ofCode code⟩ with
    ⟨outcome, stages₁, ⟨pool₁, cursor₁⟩⟩
  rw [hwalk] at h
  cases outcome with
  | error e => cases h
  | ok u =>
    have redirected :
        Redirected (stage.forgetOther pool) hierarchy pool₁ code starts cursor₁.code :=
      redirected_of_walk (.ofCode code) hpool hstage walk hsteps hwalk
    have hbytes := (Chain.reserve_unchanged (stages₁.map Stage.clean) cursor₁.code).1
    simp only at h
    rcases hreserve : (Chain.reserve (stages₁.map Stage.clean)).runOn cursor₁.code with
      ⟨outcome, code₁⟩
    rw [hreserve] at h hbytes
    cases h
    exact redirected.congr hbytes

/-- The redirected accesses refer to fields with the descriptors they had
before. -/
def KeepsDescriptors (stage : FieldRedirect) (hierarchy : TypeHierarchy) (pool : ConstantPool)
    (code : Code) (starts : List Nat) (new : Code) : Prop :=
  ∀ p ∈ starts, ∀ field, stage.access? hierarchy pool code p = some field →
    ∃ i target, Bytecode.u16At? new.bytes (p + 1) = some i ∧ pool.field i = .ok target ∧
      target.descriptor = field.descriptor

/-- The accesses keep their descriptors exactly if these are the one that all of
them get. -/
theorem Redirected.keepsDescriptors_iff
    (redirected : Redirected stage hierarchy pool code starts new) :
    stage.KeepsDescriptors hierarchy pool code starts new ↔
      ∀ field ∈ stage.accesses hierarchy pool code starts,
        stage.keptDescriptor pool (stage.accesses hierarchy pool code starts) =
          some field.descriptor := by
  constructor
  · intro keeps field hfield
    obtain ⟨p, hp, haccess⟩ := List.mem_filterMap.mp hfield
    obtain ⟨i, target, hi, htarget, hdescriptor⟩ := keeps p hp field haccess
    obtain ⟨j, found, hj, hfound, hkept⟩ := redirected.leads p hp field haccess
    cases hi.symm.trans hj
    cases htarget.symm.trans hfound.1
    rw [hkept, hdescriptor]
  · intro hall p hp field haccess
    obtain ⟨i, target, hi, htarget, hkept⟩ := redirected.leads p hp field haccess
    have hfield := hall field (List.mem_filterMap.mpr ⟨p, hp, haccess⟩)
    exact ⟨i, target, hi, htarget.1, Option.some.inj (hkept.symm.trans hfield)⟩

/-- Whether a run over a body succeeds or not, its stage may be used again, with
the same pool as it is then or later, and with every other pool. -/
theorem remembers_applyToCode (hpool : pool.Consistent) (hstage : stage.Remembers pool)
    (hierarchy : TypeHierarchy) (code : Code) :
    ∃ stage', ((Chain.applyToCode hierarchy).runOn ([stage], pool, code)).2.1 = [stage'] ∧
      ∀ other : ConstantPool, (other.id = pool.id →
        ((Chain.applyToCode hierarchy).runOn ([stage], pool, code)).2.2.1.Grows other) →
          stage'.Remembers other := by
  have hgrows := (Chain.leadsTo_walk leadsOn hierarchy (Chain.stepsFor code)
    [stage.forgetOther pool] ⟨pool, .ofCode code⟩).grows
  obtain ⟨stage', hstages, hsettled⟩ :=
    settled_walk hierarchy (Chain.stepsFor code) (.ofCode code) hpool hstage.settled_forgetOther
  have hreset : [stage].map (Stage.reset pool code) = [stage.forgetOther pool] := rfl
  rw [Chain.runOn_applyToCode, hreset]
  rcases hrun : Chain.walk hierarchy (Chain.stepsFor code) [stage.forgetOther pool]
    ⟨pool, .ofCode code⟩ with ⟨outcome, stages₁, bench₁⟩
  rw [hrun] at hgrows hstages hsettled
  have hstages : stages₁ = [stage'] := hstages
  have hid : bench₁.pool.id = pool.id := hgrows.id_eq.1
  subst hstages
  cases outcome with
  | error e => exact ⟨stage', rfl, fun other hother =>
      hsettled.remembers fun h => hother (h.trans hid)⟩
  | ok u => exact ⟨stage', rfl, fun other hother =>
      hsettled.remembers fun h => hother (h.trans hid)⟩

end Body

/-! ## New fields that are stored already -/

section Known

variable {stage : FieldRedirect} {hierarchy : TypeHierarchy} {pool : ConstantPool}
  {field : MemberRef} {i : UInt16}

/-- A new field that is stored already is found, and nothing is stored. -/
theorem runOn_internTarget_of_isFirst {descriptor : String} {name text pair owner c : UInt16}
    (hpool : pool.Consistent)
    (hname : ConstantPool.IsFirst pool.slots (.text stage.newField) name.toNat)
    (htext : ConstantPool.IsFirst pool.slots (.text descriptor) text.toNat)
    (hpair : ConstantPool.IsFirst pool.slots (.nameAndType name text) pair.toNat)
    (howner : ConstantPool.IsFirst pool.slots (.text stage.newClass) owner.toNat)
    (hclass : ConstantPool.IsFirst pool.slots (.symbol .classInfo owner) c.toNat)
    (hfield : ConstantPool.IsFirst pool.slots (.member .field c pair) i.toNat) :
    (stage.internTarget descriptor).runOn pool = (.ok i, pool) := by
  unfold internTarget ConstantPool.internNameAndType ConstantPool.internClass
    ConstantPool.internSymbol ConstantPool.internText
  simp only [Edit.runOn_bind, ConstantPool.runOn_intern_of_isFirst hpool hname,
    ConstantPool.runOn_intern_of_isFirst hpool htext,
    ConstantPool.runOn_intern_of_isFirst hpool hpair,
    ConstantPool.runOn_intern_of_isFirst hpool howner,
    ConstantPool.runOn_intern_of_isFirst hpool hclass,
    ConstantPool.runOn_intern_of_isFirst hpool hfield]

/-- A fresh stage that finds the new field stored redirects an access as if it
remembered the field. -/
theorem redirectAccess_of_known {cursor : Cursor} {position : Nat}
    (haccess : stage.accessAt? hierarchy ⟨pool, cursor⟩ position = .ok (some field))
    (hfresh : stage.cached = none)
    (hknown : (stage.internTarget field.descriptor).runOn pool = (.ok i, pool)) :
    (redirectAccess hierarchy position).runOn (stage, ⟨pool, cursor⟩) =
      (redirectAccess hierarchy position).runOn
        ({ stage with cached := some (pool.id, i) }, ⟨pool, cursor⟩) := by
  have hremembered : accessAt? { stage with cached := some (pool.id, i) } hierarchy ⟨pool, cursor⟩
      position = .ok (some field) := haccess
  have htarget : stage.targetIndex field.descriptor pool =
      targetIndex { stage with cached := some (pool.id, i) } field.descriptor pool := by
    unfold targetIndex
    rw [hfresh]
    simp only [hknown]
  unfold redirectAccess Edit.runOn
  simp only [ExceptT.mk, ExceptT.run]
  rw [haccess, hremembered]
  simp only [htarget]

/-- On a body that begins with an access, a fresh stage that finds the new field
stored does what it would do if it remembered the field. -/
theorem applyToCode_of_known {code : Code}
    (haccess : stage.accessAt? hierarchy ⟨pool, .ofCode code⟩ 0 = .ok (some field))
    {length : Nat} (hl : Bytecode.instructionLength code.bytes 0 = .ok length)
    (hfresh : stage.cached = none)
    (hknown : (stage.internTarget field.descriptor).runOn pool = (.ok i, pool)) :
    (Chain.applyToCode hierarchy).runOn ([stage], pool, code) =
      (Chain.applyToCode hierarchy).runOn
        ([{ stage with cached := some (pool.id, i) }], pool, code) := by
  have hreset : [stage].map (Stage.reset pool code) = [stage] :=
    congrArg (fun stage => [stage]) (forgetOther_eq_self fun id j h => by cases hfresh.symm.trans h)
  have hreset' : [{ stage with cached := some (pool.id, i) }].map (Stage.reset pool code) =
      [{ stage with cached := some (pool.id, i) }] :=
    congrArg (fun stage => [stage]) (forgetOther_eq_self fun id j h => by cases h; rfl)
  have hnext : (Cursor.ofCode code).hasNext = true := Cursor.hasNext_of_instructionLength hl
  have hlength : Bytecode.instructionLength (Cursor.ofCode code).code.bytes
      (Cursor.ofCode code).position = .ok length := hl
  let next : Cursor :=
    { Cursor.ofCode code with position := (Cursor.ofCode code).position + length }
  have hvisit : (Stage.visit hierarchy (Cursor.ofCode code).position).runOn (stage, ⟨pool, next⟩) =
      (Stage.visit hierarchy (Cursor.ofCode code).position).runOn
        ({ stage with cached := some (pool.id, i) }, ⟨pool, next⟩) :=
    redirectAccess_of_known haccess hfresh hknown
  have hsteps : Chain.stepsFor code = max 65535 code.bytes.size + 1 := rfl
  rw [Chain.runOn_applyToCode, Chain.runOn_applyToCode, hreset, hreset', hsteps,
    Chain.walk_singleton, Chain.walk_singleton, if_pos hnext, if_pos hnext, hlength]
  simp only
  rw [hvisit]

end Known

/-! ## The descriptors of redirected accesses -/

/-- A run over a body that succeeds changes the operands of the accesses to the
field and no other byte. Each of them refers to the new field then, with the
descriptor of the remembered field, or else that of the first access. So they all
keep their descriptors exactly if this is the descriptor of every one. -/
theorem applyToCode_descriptors {stage : FieldRedirect} {hierarchy : TypeHierarchy}
    {pool pool' : ConstantPool} {code new : Code} {starts : List Nat}
    {stages' : Chain FieldRedirect} (hpool : pool.Consistent) (hstage : stage.Remembers pool)
    (hstarts : Bytecode.starts code.bytes = .ok starts)
    (h : (Chain.applyToCode hierarchy).runOn ([stage], pool, code) =
      (.ok (), stages', pool', new)) :
    pool.Grows pool' ∧ (stage.forgetOther pool).Redirected hierarchy pool' code starts new ∧
      (stage.KeepsDescriptors hierarchy pool' code starts new ↔
        ∀ field ∈ stage.accesses hierarchy pool' code starts,
          (stage.forgetOther pool).keptDescriptor pool'
            (stage.accesses hierarchy pool' code starts) = some field.descriptor) := by
  have hgrows := (Chain.applyToCode_leadsTo leadsOn hierarchy [stage] pool code).1
  rw [h] at hgrows
  have redirected := redirected_of_applyToCode hpool hstage.settled_forgetOther hstarts h
  exact ⟨hgrows, redirected, redirected.keepsDescriptors_iff⟩

/-- The bytes of a pool with two fields of the same class and name, one of the
descriptor `I` and one of the descriptor `J`, and the two new fields for them. -/
def twinBytes : List UInt8 :=
  [0, 17,
    1, 0, 1, 0x43, 7, 0, 1, 1, 0, 1, 0x66,
    1, 0, 1, 0x49, 12, 0, 3, 0, 4, 9, 0, 2, 0, 5,
    1, 0, 1, 0x4a, 12, 0, 3, 0, 7, 9, 0, 2, 0, 8,
    1, 0, 1, 0x44, 7, 0, 10, 1, 0, 1, 0x67,
    12, 0, 12, 0, 4, 9, 0, 11, 0, 13,
    12, 0, 12, 0, 7, 9, 0, 11, 0, 15]

/-- The pool of these bytes. -/
def twinPool : ConstantPool :=
  ((ConstantPool.decode 0 twinBytes).toOption.map Prod.fst).getD (.empty 0)

/-- The body that reads two fields of the pool. -/
def twinCode (first second : UInt8) : Code :=
  { maxStack := 2
    maxLocals := 0
    bytes := #[0xb2, 0, first, 0xb2, 0, second, 0xb1]
    handlers := []
    attributes := [] }

/-- The redirection of the fields of the pool. -/
def twinRedirect : FieldRedirect := .create "C" "f" true "D" "g"

/-- The redirection that remembers the new field of the descriptor `I`. -/
def usedRedirect : FieldRedirect := { twinRedirect with cached := some (0, 14) }

/-- The pool is read. -/
theorem reachable_twinPool : ConstantPool.Reachable true twinPool := by
  have hdecode : ConstantPool.decode 0 twinBytes = .ok (twinPool, []) := rfl
  exact .decode hdecode

/-- The new field of the descriptor `I` is stored. -/
theorem internTarget_twinPool :
    (twinRedirect.internTarget "I").runOn twinPool = (.ok 14, twinPool) := by
  have hplaces : ConstantPool.IsFirst twinPool.slots (.text "g") (12 : UInt16).toNat ∧
      ConstantPool.IsFirst twinPool.slots (.text "I") (4 : UInt16).toNat ∧
      ConstantPool.IsFirst twinPool.slots (.nameAndType 12 4) (13 : UInt16).toNat ∧
      ConstantPool.IsFirst twinPool.slots (.text "D") (10 : UInt16).toNat ∧
      ConstantPool.IsFirst twinPool.slots (.symbol .classInfo 10) (11 : UInt16).toNat ∧
      ConstantPool.IsFirst twinPool.slots (.member .field 11 13) (14 : UInt16).toNat := by
    unfold ConstantPool.IsFirst
    decide +kernel
  obtain ⟨hname, htext, hpair, howner, hclass, hplace⟩ := hplaces
  exact runOn_internTarget_of_isFirst reachable_twinPool.consistent hname htext hpair howner hclass
    hplace

/-- A redirection that is used again keeps the descriptors of two accesses of the
remembered descriptor. -/
theorem applyToCode_descriptors_used :
    (ConstantPool.Reachable true twinPool ∧ usedRedirect.Remembers twinPool ∧
      Bytecode.starts (twinCode 6 6).bytes = .ok [0, 3, 6]) ∧
      ∃ stages' pool' new, (Chain.applyToCode .unknown).runOn
          ([usedRedirect], twinPool, twinCode 6 6) = (.ok (), stages', pool', new) ∧
        new.bytes = #[0xb2, 0, 14, 0xb2, 0, 14, 0xb1] ∧
        usedRedirect.KeepsDescriptors .unknown pool' (twinCode 6 6) [0, 3, 6] new := by
  have hremembers : usedRedirect.Remembers twinPool := by
    intro id i hcached _
    cases hcached
    exact ⟨⟨.field, 11, 13, "D", "g", "I"⟩, by decide +kernel, rfl, rfl⟩
  have hstarts : Bytecode.starts (twinCode 6 6).bytes = .ok [0, 3, 6] := by decide +kernel
  have hdone : ((Chain.applyToCode .unknown).runOn
      ([usedRedirect], twinPool, twinCode 6 6)).1 = .ok () := by decide +kernel
  have hrun := Edit.runOn_eq_of_fst _ hdone
  obtain ⟨-, -, hkeeps⟩ := applyToCode_descriptors reachable_twinPool.consistent hremembers
    hstarts hrun
  refine ⟨⟨reachable_twinPool, hremembers, hstarts⟩, _, _, _, hrun, ?_, hkeeps.mpr ?_⟩
  · decide +kernel
  · decide +kernel

/-- A fresh redirection gives the field of the descriptor `J` the descriptor of
the access before it. -/
theorem applyToCode_not_keepsDescriptors :
    ConstantPool.Reachable true twinPool ∧ Bytecode.starts (twinCode 6 9).bytes = .ok [0, 3, 6] ∧
      ∃ stages' pool' new, (Chain.applyToCode .unknown).runOn
          ([twinRedirect], twinPool, twinCode 6 9) = (.ok (), stages', pool', new) ∧
        ¬ twinRedirect.KeepsDescriptors .unknown pool' (twinCode 6 9) [0, 3, 6] new := by
  have haccess : twinRedirect.accessAt? .unknown ⟨twinPool, .ofCode (twinCode 6 9)⟩ 0 =
      .ok (some ⟨.field, 2, 5, "C", "f", "I"⟩) := by decide +kernel
  have hlength : Bytecode.instructionLength (twinCode 6 9).bytes 0 = .ok 3 := by decide +kernel
  have hid : twinPool.id = 0 := by decide +kernel
  have hsame := applyToCode_of_known haccess hlength rfl internTarget_twinPool
  rw [hid] at hsame
  have hdone : ((Chain.applyToCode .unknown).runOn
      ([usedRedirect], twinPool, twinCode 6 9)).1 = .ok () := by decide +kernel
  have hrun := hsame.trans (Edit.runOn_eq_of_fst _ hdone)
  have hindex : Bytecode.u16At? ((Chain.applyToCode .unknown).runOn
      ([usedRedirect], twinPool, twinCode 6 9)).2.2.2.bytes (3 + 1) = some 14 := by decide +kernel
  have hfield : ((Chain.applyToCode .unknown).runOn
      ([usedRedirect], twinPool, twinCode 6 9)).2.2.1.field 14 =
        .ok ⟨.field, 11, 13, "D", "g", "I"⟩ := by decide +kernel
  refine ⟨reachable_twinPool, by decide +kernel, _, _, _, hrun, fun hkeeps => ?_⟩
  obtain ⟨i, target, hi, htarget, hdescriptor⟩ := hkeeps 3 (by decide)
    ⟨.field, 2, 8, "C", "f", "J"⟩ (by decide +kernel)
  cases hi.symm.trans hindex
  cases htarget.symm.trans hfield
  exact absurd hdescriptor (by decide)

end JvmClass.FieldRedirect
