import JvmClass.Proofs.Transform.FieldOperands

/-!
# Accesses that match

A redirection goes by the names of the field that an instruction refers to. All
accesses that match get one index, and nothing else of the body is touched. The
index is found again in the pool, so that the accesses keep it when the redirection
is repeated, even if the new field matches as well.
-/

namespace JvmClass

namespace FieldRedirect

open Bytecode

section Definitions

variable (stage : FieldRedirect) (hierarchy : TypeHierarchy)

/-- A field has the configured name, and the configured class or, unless the field is
private, a class from which the hierarchy resolves it to that class. -/
def Concerns (field : MemberRef) : Prop :=
  field.name = stage.fieldName ∧
    (field.className = stage.className ∨
      stage.isPrivate = false ∧ hierarchy field.className field.name = some stage.className)

/-- The instruction at a position is an access to a field that is to be redirected. -/
def Matches (pool : ConstantPool) (code : Bytecode) (p : Nat) : Prop :=
  ∃ field, RefersTo code pool p field ∧ stage.Concerns hierarchy field

/-- What a redirection does to a body with these starts. The pool is `pool` before and
`pool'` afterwards. -/
structure RedirectsMatching (pool : ConstantPool) (code : Code) (starts : List Nat)
    (pool' : ConstantPool) (new : Code) : Prop where
  /-- The limits, the exception table and the attributes are the same. -/
  rest : new = { code with bytes := new.bytes }
  /-- The code has the same length. -/
  size : new.bytes.size = code.bytes.size
  /-- A byte that differs is one of the two operand bytes of an access that matches. -/
  only : ∀ j, new.bytes[j]? ≠ code.bytes[j]? →
    ∃ p ∈ starts, stage.Matches hierarchy pool' code.bytes p ∧ (j = p + 1 ∨ j = p + 2)
  /-- Every access that matches refers to the new field. -/
  all : ∀ p ∈ starts, stage.Matches hierarchy pool' code.bytes p →
    ∃ target, RefersTo new.bytes pool' p target ∧ target.className = stage.newClass ∧
      target.name = stage.newField
  /-- What an operand refers to in the pool before, it refers to afterwards. -/
  reads : ∀ p field, RefersTo code.bytes pool p field → RefersTo code.bytes pool' p field
  /-- If no access matches in the pool before, pool and body stay as they are. -/
  none : (∀ p ∈ starts, ¬ stage.Matches hierarchy pool code.bytes p) → pool' = pool ∧ new = code

/-- The accesses that match have an index as their operand now, and the others keep
theirs. -/
structure PutsIndex (pool : ConstantPool) (code : Code) (starts : List Nat) (new : Code)
    (i : UInt16) : Prop where
  /-- An access that matches has the index. -/
  operand : ∀ p ∈ starts, stage.Matches hierarchy pool code.bytes p →
    u16At? new.bytes (p + 1) = some i
  /-- Another access stays as it is. -/
  kept : ∀ p ∈ starts, accessesField code.bytes p = true →
    ¬ stage.Matches hierarchy pool code.bytes p → ∀ j < 3, new.bytes[p + j]? = code.bytes[p + j]?

/-- A visit leaves the instruction at a position as it is: it is no access that matches,
or it has the index already that the stage gives to it. -/
def Rests (pool : ConstantPool) (code : Bytecode) (descriptor : String) (i : UInt16) (p : Nat) :
    Prop :=
  accessesField code p = true → ∃ field, RefersTo code pool p field ∧
    (stage.concerns hierarchy field = true → field.descriptor = descriptor ∧
      u16At? code (p + 1) = some i ∧
      stage.targetIndex descriptor pool =
        (.ok i, { stage with cached := some (pool.id, i) }, pool))

end Definitions

section Matching

variable {stage : FieldRedirect} {hierarchy : TypeHierarchy} {pool pool' : ConstantPool}
  {code changed new : Code} {starts : List Nat} {field : MemberRef} {descriptor : String}
  {i : UInt16} {p n first : Nat}

theorem concerns_eq_true_iff :
    stage.concerns hierarchy field = true ↔ stage.Concerns hierarchy field := by
  simp [concerns, Concerns]

/-- Whether an access matches is decided by the field that it refers to. -/
theorem matches_iff (refers : RefersTo code.bytes pool p field) :
    stage.Matches hierarchy pool code.bytes p ↔ stage.concerns hierarchy field = true := by
  rw [concerns_eq_true_iff]
  constructor
  · rintro ⟨other, hother, hconcerns⟩
    cases refers.unique hother
    exact hconcerns
  · exact fun hconcerns => ⟨field, refers, hconcerns⟩

/-- An instruction that accesses no field does not match. -/
theorem not_matches_of_other (h : accessesField code.bytes p = false) :
    ¬ stage.Matches hierarchy pool code.bytes p := by
  rintro ⟨field, refers, -⟩
  cases h.symm.trans refers.access

/-- Whether an access matches depends on its own three bytes only. -/
theorem Matches.congr (h : stage.Matches hierarchy pool code.bytes p)
    (hbytes : ∀ j < 3, changed.bytes[p + j]? = code.bytes[p + j]?) :
    stage.Matches hierarchy pool changed.bytes p := by
  obtain ⟨field, refers, hconcerns⟩ := h
  exact ⟨field, refers.congr hbytes, hconcerns⟩

/-- What matches, matches when the pool has grown. -/
theorem Matches.grows (h : stage.Matches hierarchy pool code.bytes p)
    (grows : pool.Grows pool') : stage.Matches hierarchy pool' code.bytes p := by
  obtain ⟨field, refers, hconcerns⟩ := h
  exact ⟨field, refers.grows grows, hconcerns⟩

/-! ## The index of the new field -/

/-- Asking for the new field interns six entries at most. -/
theorem interns_internTarget (stage : FieldRedirect) (descriptor : String) :
    ConstantPool.Interns 6 (stage.internTarget descriptor) :=
  .bind (l := 3) (m := 3) (ConstantPool.interns_internNameAndType ..)
    (fun _ => .bind (l := 2) (m := 1) (ConstantPool.interns_internSymbol ..)
      (fun _ => .entry le_rfl) le_rfl) le_rfl

/-- The descriptor of the new field gives the same index in the pool that has it. -/
theorem targetIndex_again (hpool : pool.Consistent) (hstage : stage.Settled pool)
    {stage' : FieldRedirect} (h : stage.targetIndex descriptor pool = (.ok i, stage', pool')) :
    ∃ target, stage.LeadsToNew pool' i target ∧
      stage.targetIndex target.descriptor pool' =
        (.ok i, { stage with cached := some (pool'.id, i) }, pool') := by
  unfold targetIndex at h ⊢
  cases hcached : stage.cached with
  | some remembered =>
    rw [hcached] at h
    cases h
    obtain ⟨hid, target, leads⟩ := hstage _ _ hcached
    have hself : { stage with cached := some (pool.id, remembered.2) } = stage := by
      rw [← hid, ← hcached]
    refine ⟨target, leads, ?_⟩
    rw [hself]
  | none =>
    rw [hcached] at h
    simp only at h
    split at h
    · next j next hrun =>
      cases h
      obtain ⟨target, leads, hdescriptor⟩ := leadsToNew_of_internTarget hpool hrun
      have hagain := ((interns_internTarget stage descriptor).again hrun .refl).1
      refine ⟨target, leads, ?_⟩
      rw [hdescriptor, hagain]
    · cases h

/-- Without instructions there is nothing to be put. -/
theorem PutsIndex.nil : stage.PutsIndex hierarchy pool code [] new i :=
  ⟨fun _ hp => absurd hp List.not_mem_nil, fun _ hp => absurd hp List.not_mem_nil⟩

/-- An instruction that is taken before the others. -/
theorem PutsIndex.cons {chain chain' : Chain FieldRedirect} {mid final : ConstantPool}
    (puts : stage.PutsIndex hierarchy pool changed starts new i)
    (hl : instructionLength code.bytes p = .ok n)
    (rest : Walk code.bytes (p + n) starts code.bytes.size)
    (later : Trail hierarchy starts chain mid changed chain' final new)
    (hbehind : ∀ {j}, p + n ≤ j → changed.bytes[j]? = code.bytes[j]?)
    (hsize : changed.bytes.size = code.bytes.size)
    (hput : stage.Matches hierarchy pool code.bytes p → u16At? changed.bytes (p + 1) = some i)
    (hkept : ¬ stage.Matches hierarchy pool code.bytes p → changed = code) :
    stage.PutsIndex hierarchy pool code (p :: starts) new i := by
  have walk : Walk changed.bytes (p + n) starts changed.bytes.size := by
    rw [hsize]
    exact rest.of_bytes fun j hj _ => hbehind hj
  -- the instruction stays as it is now, and the others are as they were
  have hfront : accessesField code.bytes p = true → ∀ j < 3, new.bytes[p + j]? =
      changed.bytes[p + j]? := fun haccess j hj => by
    cases length_of_accessesField haccess hl
    exact later.getElem?_eq walk (by omega)
  have hsame : ∀ q ∈ starts, ∀ j < 3, changed.bytes[q + j]? = code.bytes[q + j]? :=
    fun q hq j _ => hbehind (by have := rest.mem_bounds hq; omega)
  constructor
  · intro q hq hmatches
    rcases List.mem_cons.mp hq with rfl | hq
    · obtain ⟨field, refers, -⟩ := id hmatches
      rw [← hput hmatches]
      refine u16At?_congr fun j hj => ?_
      rw [Nat.add_assoc]
      exact hfront refers.access (1 + j) (by omega)
    · exact puts.operand q hq (hmatches.congr (hsame q hq))
  · intro q hq haccess hmatches j hj
    rcases List.mem_cons.mp hq with rfl | hq
    · rw [hfront haccess j hj, hkept hmatches]
    · have haccess' : accessesField changed.bytes q = true :=
        (congrArg (Option.any Opcode.isFieldAccess) (hsame q hq 0 (by omega))).trans haccess
      have hmatches' : ¬ stage.Matches hierarchy pool changed.bytes q := fun h =>
        hmatches (h.congr fun j hj => (hsame q hq j hj).symm)
      rw [puts.kept q hq haccess' hmatches' j hj, hsame q hq j hj]

/-- A visit to an instruction that does not match changes nothing, and the instruction does
not match in a later pool either. -/
theorem Step.of_not_matches {stage' : FieldRedirect}
    (step : Step stage hierarchy pool code p stage' pool' new)
    (h : ¬ stage.Matches hierarchy pool code.bytes p) :
    stage' = stage ∧ pool' = pool ∧ new = code ∧
      ∀ later, pool.Grows later → ¬ stage.Matches hierarchy later code.bytes p := by
  cases step with
  | other haccess => exact ⟨rfl, rfl, rfl, fun _ _ => not_matches_of_other haccess⟩
  | passed refers concerns =>
    refine ⟨rfl, rfl, rfl, fun later grows hmatches => ?_⟩
    cases concerns.symm.trans ((matches_iff (refers.grows grows)).mp hmatches)
  | redirected refers concerns => exact absurd ((matches_iff refers).mpr concerns) h

/-- A visit to an access that matches puts the index of the new field into it. -/
theorem Step.of_matches {stage' : FieldRedirect}
    (step : Step stage hierarchy pool code p stage' pool' new)
    (h : stage.Matches hierarchy pool code.bytes p) :
    ∃ field i, RefersTo code.bytes pool p field ∧
      stage.targetIndex field.descriptor pool = (.ok i, stage', pool') ∧
      u16At? new.bytes (p + 1) = some i := by
  cases step with
  | other haccess => exact absurd h (not_matches_of_other haccess)
  | passed refers concerns => cases concerns.symm.trans ((matches_iff refers).mp h)
  | redirected refers _ target room =>
    exact ⟨_, _, refers, target, u16At?_of_bytes fun j hj => getElem?_overwrite_of_inside hj room⟩

/-- A pass through one stage is a step of it. -/
theorem Pass.exists_step {between : Chain FieldRedirect}
    (pass : Pass hierarchy p [stage] pool code between pool' new) :
    ∃ stage', between = [stage'] ∧ Step stage hierarchy pool code p stage' pool' new := by
  cases pass with
  | step step later =>
    cases later
    exact ⟨_, rfl, step⟩

/-- A stage that remembers the new field puts its index into all accesses that match, and
stores nothing. -/
theorem Trail.putsIndex_of_cached {chain chain' : Chain FieldRedirect} {id : Nat}
    (trail : Trail hierarchy starts chain pool code chain' pool' new) (hchain : chain = [stage])
    (hcached : stage.cached = some (id, i)) :
    chain' = [stage] ∧ pool' = pool ∧ stage.PutsIndex hierarchy pool code starts new i := by
  induction trail with
  | done => exact ⟨hchain, rfl, .nil⟩
  | @round p n starts _ between _ pool mid pool' code changed new hl rest pass later ih =>
    subst hchain
    have hbehind : ∀ {j}, p + n ≤ j → changed.bytes[j]? = code.bytes[j]? := pass.getElem?_eq hl
    have hsize := pass.sameButFields.size
    obtain ⟨stage₁, rfl, step⟩ := pass.exists_step
    by_cases hmatches : stage.Matches hierarchy pool code.bytes p
    · obtain ⟨field, k, refers, target, hk⟩ := step.of_matches hmatches
      unfold targetIndex at target
      rw [hcached] at target
      cases target
      obtain ⟨hchain', rfl, puts⟩ := ih rfl
      cases length_of_accessesField refers.access hl
      exact ⟨hchain', rfl,
        puts.cons hl rest later hbehind hsize (fun _ => hk) fun h => absurd hmatches h⟩
    · obtain ⟨rfl, rfl, rfl, hnot⟩ := step.of_not_matches hmatches
      obtain ⟨hchain', rfl, puts⟩ := ih rfl
      exact ⟨hchain', rfl, puts.cons hl rest later hbehind hsize (absurd · hmatches) fun _ => rfl⟩

/-- A run of one stage finds no access that matches, and leaves everything as it is, or it
puts the index of the new field into all of them. The pool that it leaves gives this index
again. -/
theorem Trail.putsIndex {chain chain' : Chain FieldRedirect}
    (trail : Trail hierarchy starts chain pool code chain' pool' new) (hchain : chain = [stage])
    (hpool : pool.Consistent) (hstage : stage.Settled pool) :
    ((∀ p ∈ starts, ¬ stage.Matches hierarchy pool code.bytes p) ∧ chain' = [stage] ∧
        pool' = pool ∧ new = code) ∨
      (∃ p ∈ starts, stage.Matches hierarchy pool code.bytes p) ∧
        ∃ i target, chain' = [{ stage with cached := some (pool'.id, i) }] ∧
          stage.LeadsToNew pool' i target ∧
          stage.targetIndex target.descriptor pool' =
            (.ok i, { stage with cached := some (pool'.id, i) }, pool') ∧
          stage.PutsIndex hierarchy pool' code starts new i := by
  induction trail with
  | done => exact .inl ⟨fun _ hp => absurd hp List.not_mem_nil, hchain, rfl, rfl⟩
  | @round p n starts _ between _ pool mid pool' code changed new hl rest pass later ih =>
    subst hchain
    have hbehind : ∀ {j}, p + n ≤ j → changed.bytes[j]? = code.bytes[j]? := pass.getElem?_eq hl
    have hsize := pass.sameButFields.size
    obtain ⟨stage₁, rfl, step⟩ := pass.exists_step
    by_cases hmatches : stage.Matches hierarchy pool code.bytes p
    · obtain ⟨field, i, refers, hindex, hi⟩ := step.of_matches hmatches
      obtain ⟨rfl, hgrows, -⟩ := targetIndex_leadsToNew hpool hstage field hindex
      obtain ⟨target, leads, hagain⟩ := targetIndex_again hpool hstage hindex
      obtain ⟨rfl, rfl, puts⟩ := later.putsIndex_of_cached rfl rfl
      have puts : stage.PutsIndex hierarchy pool' changed starts new i := ⟨puts.operand, puts.kept⟩
      refine .inr ⟨⟨p, List.mem_cons_self, hmatches⟩, i, target, rfl, leads, hagain, ?_⟩
      exact puts.cons hl rest later hbehind hsize (fun _ => hi)
        fun h => absurd (hmatches.grows hgrows) h
    · obtain ⟨rfl, rfl, rfl, hnot⟩ := step.of_not_matches hmatches
      rcases ih rfl hpool hstage with ⟨hnone, hunchanged⟩ |
        ⟨⟨q, hq, hfound⟩, i, target, hchain', leads, hagain, puts⟩
      · refine .inl ⟨fun q hq => ?_, hunchanged⟩
        rcases List.mem_cons.mp hq with rfl | hq
        · exact hmatches
        · exact hnone q hq
      · refine .inr ⟨⟨q, List.mem_cons_of_mem p hq, hfound⟩, i, target, hchain', leads, hagain, ?_⟩
        exact puts.cons hl rest later hbehind hsize (absurd · (hnot pool' later.grows)) fun _ => rfl

/-! ## A second run -/

/-- Bytes that are replaced by themselves stay as they are. -/
theorem overwrite_of_u16At? {bytes : Bytecode} (h : u16At? bytes p = some i) :
    overwrite bytes p (Codec.bytesOfU16 i) = bytes := by
  have hself : ∀ {j : Nat} {byte : UInt8}, bytes[j]? = some byte →
      bytes.setIfInBounds j byte = bytes := fun {j byte} hbyte => by
    refine Array.ext_getElem? fun k => ?_
    rw [Array.getElem?_setIfInBounds]
    split
    · next heq =>
      subst heq
      rw [if_pos (Array.getElem?_eq_some_iff.mp hbyte).1, hbyte]
    · rfl
  unfold u16At? at h
  split at h
  · next a b ha hb =>
    cases h
    have hbytes : Codec.bytesOfU16 (UInt16.ofNat (a.toNat * 256 + b.toNat)) = [a, b] :=
      Codec.bytesOfU16_u16OfBytes a b
    rw [hbytes]
    unfold overwrite overwrite overwrite
    rw [hself ha, hself hb]
  · cases h

/-- A step on an instruction that rests leaves pool and body as they are, and what rested
before does so afterwards. -/
theorem Rests.exists_step (hrests : stage.Rests hierarchy pool code.bytes descriptor i p)
    (hl : instructionLength code.bytes p = .ok n) :
    ∃ stage', Step stage hierarchy pool code p stage' pool code ∧
      ∀ q, stage.Rests hierarchy pool code.bytes descriptor i q →
        stage'.Rests hierarchy pool code.bytes descriptor i q := by
  cases haccess : accessesField code.bytes p with
  | false => exact ⟨stage, .other haccess, fun _ h => h⟩
  | true =>
    obtain ⟨field, refers, hindex⟩ := hrests haccess
    cases hconcerns : stage.concerns hierarchy field with
    | false => exact ⟨stage, .passed refers hconcerns, fun _ h => h⟩
    | true =>
      obtain ⟨rfl, hoperand, htarget⟩ := hindex hconcerns
      cases length_of_accessesField haccess hl
      have hroom : p + 3 ≤ code.bytes.size := add_instructionLength_le hl
      have step := Step.redirected refers hconcerns htarget hroom
      have hsame : { code with
          bytes := overwrite code.bytes (p + 1) (Codec.bytesOfU16 i) } = code := by
        rw [overwrite_of_u16At? hoperand]
        cases code
        rfl
      rw [hsame] at step
      refine ⟨_, step, fun q h haccess => ?_⟩
      obtain ⟨other, hother, hindex⟩ := h haccess
      refine ⟨other, hother, fun hconcerns => ?_⟩
      obtain ⟨hdescriptor, hoperand, -⟩ := hindex hconcerns
      exact ⟨hdescriptor, hoperand, rfl⟩

/-- A run over instructions that rest leaves pool and body as they are. -/
theorem exists_trail_of_rests (walk : Walk code.bytes first starts code.bytes.size)
    (hrests : ∀ p ∈ starts, stage.Rests hierarchy pool code.bytes descriptor i p) :
    ∃ stages', Trail hierarchy starts [stage] pool code stages' pool code := by
  induction starts generalizing stage first with
  | nil => exact ⟨[stage], .done _ _ _⟩
  | cons p starts ih =>
    obtain ⟨n, hl, rest⟩ := walk.exists_rest
    cases walk.first_eq
    obtain ⟨stage', step, hkept⟩ := (hrests _ List.mem_cons_self).exists_step hl
    obtain ⟨stages', later⟩ := ih rest fun q hq => hkept q (hrests q (List.mem_cons_of_mem _ hq))
    exact ⟨stages', .round hl rest (.step step (.done _ _)) later⟩

/-- A stage that is run over a body whose instructions rest leaves pool and body as they
are. -/
theorem applyToCode_of_rests (walk : Walk code.bytes 0 starts code.bytes.size)
    (hrests : ∀ p ∈ starts,
      (stage.forgetOther pool).Rests hierarchy pool code.bytes descriptor i p) :
    ∃ stages', (Chain.applyToCode hierarchy).runOn ([stage], pool, code) =
      (.ok (), stages', pool, code) := by
  obtain ⟨stages', trail⟩ := exists_trail_of_rests walk hrests
  exact ⟨stages', applyToCode_eq_ok_iff.mpr ⟨starts, starts_eq_ok_iff.mpr walk, trail⟩⟩

/-- After a run, all instructions rest. -/
theorem PutsIndex.rests {chain chain' : Chain FieldRedirect}
    (puts : stage.PutsIndex hierarchy pool' code starts new i)
    (trail : Trail hierarchy starts chain pool code chain' pool' new) (hchain : chain ≠ [])
    (walk : Walk code.bytes 0 starts code.bytes.size)
    (hknown : (∃ p ∈ starts, stage.Matches hierarchy pool' code.bytes p) →
      ∃ target, stage.LeadsToNew pool' i target ∧ target.descriptor = descriptor ∧
        stage.targetIndex descriptor pool' =
          (.ok i, { stage with cached := some (pool'.id, i) }, pool'))
    (hp : p ∈ starts) : stage.Rests hierarchy pool' new.bytes descriptor i p := by
  intro haccess
  have hold : accessesField code.bytes p = true :=
    (trail.sameButFields.accessesField_eq walk hp).symm.trans haccess
  by_cases hmatches : stage.Matches hierarchy pool' code.bytes p
  · obtain ⟨target, leads, hdescriptor, hindex⟩ := hknown ⟨p, hp, hmatches⟩
    have hoperand := puts.operand p hp hmatches
    exact ⟨target, ⟨haccess, i, hoperand, leads.1⟩, fun _ => ⟨hdescriptor, hoperand, hindex⟩⟩
  · obtain ⟨field, refers⟩ := trail.exists_refersTo hchain hp hold
    refine ⟨field, refers.congr (puts.kept p hp hold hmatches), fun hconcerns => ?_⟩
    exact absurd ((matches_iff refers).mpr hconcerns) hmatches

/-- A run that puts an index into the accesses that match redirects these and touches
nothing else. -/
theorem PutsIndex.redirectsMatching {chain chain' : Chain FieldRedirect}
    (puts : stage.PutsIndex hierarchy pool' code starts new i)
    (trail : Trail hierarchy starts chain pool code chain' pool' new)
    (walk : Walk code.bytes 0 starts code.bytes.size)
    (hleads : (∃ p ∈ starts, stage.Matches hierarchy pool' code.bytes p) →
      ∃ target, stage.LeadsToNew pool' i target)
    (hnone : (∀ p ∈ starts, ¬ stage.Matches hierarchy pool code.bytes p) →
      pool' = pool ∧ new = code) :
    stage.RedirectsMatching hierarchy pool code starts pool' new := by
  have same := trail.sameButFields
  refine ⟨same.rest, same.size, fun j hdiffers => ?_, fun p hp hmatches => ?_,
    fun _ _ refers => refers.grows trail.grows, hnone⟩
  · by_contra hno
    refine hdiffers (same.bytes j fun p hp haccess => ?_)
    by_contra hinside
    obtain ⟨k, hk, rfl⟩ : ∃ k, (k = 1 ∨ k = 2) ∧ j = p + k := ⟨j - p, by omega, by omega⟩
    by_cases hmatches : stage.Matches hierarchy pool' code.bytes p
    · exact hno ⟨p, hp, hmatches, by omega⟩
    · exact hdiffers (puts.kept p hp haccess hmatches k (by omega))
  · obtain ⟨target, leads⟩ := hleads ⟨p, hp, hmatches⟩
    obtain ⟨field, refers, -⟩ := id hmatches
    have haccess := (same.accessesField_eq walk hp).trans refers.access
    exact ⟨target, ⟨haccess, i, puts.operand p hp hmatches, leads.1⟩, leads.2⟩

/-- A run of a settled stage redirects the accesses that match, and all instructions rest
afterwards, for the stage as it was and as it is then. -/
theorem Trail.redirectsMatching {stages' : Chain FieldRedirect}
    (trail : Trail hierarchy starts [stage] pool code stages' pool' new)
    (walk : Walk code.bytes 0 starts code.bytes.size) (hpool : pool.Consistent)
    (hstage : stage.Settled pool) :
    stage.RedirectsMatching hierarchy pool code starts pool' new ∧
      ∃ last descriptor i, stages' = [last] ∧ last.forgetOther pool' = last ∧
        ∀ used, used = stage ∨ used = last → ∀ p ∈ starts,
          used.Rests hierarchy pool' new.bytes descriptor i p := by
  rcases trail.putsIndex rfl hpool hstage with ⟨hnone, rfl, rfl, rfl⟩ |
    ⟨⟨p, hp, hmatches⟩, i, target, rfl, leads, hknown, puts⟩
  · have puts : stage.PutsIndex hierarchy pool' new starts new 0 :=
      ⟨fun p hp h => absurd h (hnone p hp), fun _ _ _ _ _ _ => rfl⟩
    have hno {α : Prop} :
        (∃ p ∈ starts, stage.Matches hierarchy pool' new.bytes p) → α :=
      fun ⟨p, hp, h⟩ => absurd h (hnone p hp)
    refine ⟨puts.redirectsMatching trail walk hno fun _ => ⟨rfl, rfl⟩, stage, "", 0, rfl,
      forgetOther_eq_self fun id i hcached => (hstage id i hcached).1, fun used hused p => ?_⟩
    rcases hused with rfl | rfl <;> exact puts.rests trail (List.cons_ne_nil _ _) walk hno
  · refine ⟨puts.redirectsMatching trail walk (fun _ => ⟨target, leads⟩)
      fun hnone => absurd hmatches (hnone p hp), _, target.descriptor, i, rfl,
      forgetOther_eq_self fun id i hcached => by cases hcached; rfl, fun used hused p => ?_⟩
    rcases hused with rfl | rfl
    · exact puts.rests trail (List.cons_ne_nil _ _) walk fun _ => ⟨target, leads, rfl, hknown⟩
    · have puts' : PutsIndex { stage with cached := some (pool'.id, i) } hierarchy pool' code starts
          new i := ⟨puts.operand, puts.kept⟩
      exact puts'.rests trail (List.cons_ne_nil _ _) walk fun _ => ⟨target, leads, rfl, rfl⟩

/-- What is remembered does not matter for what matches. -/
theorem RedirectsMatching.of_forgetOther {other : ConstantPool}
    (h : (stage.forgetOther other).RedirectsMatching hierarchy pool code starts pool' new) :
    stage.RedirectsMatching hierarchy pool code starts pool' new :=
  ⟨h.rest, h.size, h.only, h.all, h.reads, h.none⟩

end Matching

/-- **A redirection touches only accesses that match, and misses none.** When a run over a
body succeeds, the code has the same length, and only operand bytes of those accesses have
changed whose field has the configured name and the configured class, or a class from which
the hierarchy resolves the field to that class; all these refer to the new field. If there
is no such access, the pool has not changed either. Another run of the stage, be it as it
was or as it is now, succeeds and changes neither the body nor the pool. -/
theorem applyToCode_redirectsMatching {stage : FieldRedirect} {hierarchy : TypeHierarchy}
    {pool pool' : ConstantPool} {code new : Code} {starts : List Nat}
    {stages' : Chain FieldRedirect} (hpool : pool.Consistent) (hstage : stage.Remembers pool)
    (hstarts : Bytecode.starts code.bytes = .ok starts)
    (h : (Chain.applyToCode hierarchy).runOn ([stage], pool, code) =
      (.ok (), stages', pool', new)) :
    stage.RedirectsMatching hierarchy pool code starts pool' new ∧
      ∀ used, used = stage ∨ stages' = [used] →
        ∃ stages'', (Chain.applyToCode hierarchy).runOn ([used], pool', new) =
          (.ok (), stages'', pool', new) := by
  obtain ⟨starts', hstarts', trail⟩ := applyToCode_eq_ok_iff.mp h
  cases hstarts.symm.trans hstarts'
  have walk := starts_eq_ok_iff.mp hstarts
  obtain ⟨redirects, last, descriptor, i, rfl, hlast, hrests⟩ :=
    trail.redirectsMatching walk hpool hstage.settled_forgetOther
  have hid : stage.forgetOther pool' = stage.forgetOther pool := by
    unfold forgetOther
    rw [trail.grows.id_eq.1]
  refine ⟨redirects.of_forgetOther, fun used hused => ?_⟩
  have hagain :
      used.forgetOther pool' = stage.forgetOther pool ∨ used.forgetOther pool' = last := by
    rcases hused with rfl | hused
    · exact .inl hid
    · cases hused
      exact .inr hlast
  exact applyToCode_of_rests (trail.sameButFields.walk walk) (hrests _ hagain)

/-- The redirection of a field to itself. -/
def selfRedirect : FieldRedirect := .create "C" "f" false "C" "f"

/-- A redirection of a field to itself gives all accesses the descriptor of the first one.
They match afterwards as well, and keep their operands when it is repeated. -/
theorem applyToCode_redirectsMatching_self :
    (ConstantPool.Reachable true twinPool ∧ selfRedirect.Remembers twinPool ∧
      Bytecode.starts (twinCode 6 9).bytes = .ok [0, 3, 6]) ∧
      ∃ stages' pool' new, (Chain.applyToCode .unknown).runOn
          ([selfRedirect], twinPool, twinCode 6 9) = (.ok (), stages', pool', new) ∧
        new.bytes = #[0xb2, 0, 6, 0xb2, 0, 6, 0xb1] ∧
        selfRedirect.RedirectsMatching .unknown twinPool (twinCode 6 9) [0, 3, 6] pool' new ∧
        ∃ stages'', (Chain.applyToCode .unknown).runOn ([selfRedirect], pool', new) =
          (.ok (), stages'', pool', new) := by
  have hplaces : ConstantPool.IsFirst twinPool.slots (.text "f") (3 : UInt16).toNat ∧
      ConstantPool.IsFirst twinPool.slots (.text "I") (4 : UInt16).toNat ∧
      ConstantPool.IsFirst twinPool.slots (.nameAndType 3 4) (5 : UInt16).toNat ∧
      ConstantPool.IsFirst twinPool.slots (.text "C") (1 : UInt16).toNat ∧
      ConstantPool.IsFirst twinPool.slots (.symbol .classInfo 1) (2 : UInt16).toNat ∧
      ConstantPool.IsFirst twinPool.slots (.member .field 2 5) (6 : UInt16).toNat := by
    unfold ConstantPool.IsFirst
    decide +kernel
  obtain ⟨hname, htext, hpair, howner, hclass, hplace⟩ := hplaces
  have hknown : (selfRedirect.internTarget "I").runOn twinPool = (.ok 6, twinPool) :=
    runOn_internTarget_of_isFirst reachable_twinPool.consistent hname htext hpair howner hclass
      hplace
  have haccess : selfRedirect.accessAt? .unknown ⟨twinPool, .ofCode (twinCode 6 9)⟩ 0 =
      .ok (some ⟨.field, 2, 5, "C", "f", "I"⟩) := by decide +kernel
  have hlength : Bytecode.instructionLength (twinCode 6 9).bytes 0 = .ok 3 := by decide +kernel
  have hsame := applyToCode_of_known haccess hlength rfl hknown
  have hid : twinPool.id = 0 := by decide +kernel
  rw [hid] at hsame
  have hdone : ((Chain.applyToCode .unknown).runOn
      ([{ selfRedirect with cached := some (0, 6) }], twinPool, twinCode 6 9)).1 = .ok () := by
    decide +kernel
  have hrun := hsame.trans (Edit.runOn_eq_of_fst _ hdone)
  have hstarts : Bytecode.starts (twinCode 6 9).bytes = .ok [0, 3, 6] := by decide +kernel
  have hremembers : selfRedirect.Remembers twinPool := remembers_of_fresh rfl twinPool
  obtain ⟨redirects, hagain⟩ :=
    applyToCode_redirectsMatching reachable_twinPool.consistent hremembers hstarts hrun
  refine ⟨⟨reachable_twinPool, hremembers, hstarts⟩, _, _, _, hrun, ?_, redirects,
    hagain selfRedirect (.inl rfl)⟩
  decide +kernel

end FieldRedirect

end JvmClass
