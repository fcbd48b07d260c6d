import JvmClass.Proofs.ClassFile.Format
import JvmClass.Proofs.Member.Readable
import JvmClass.Transform.Chain
import JvmClass.Transform.FieldRedirect

/-!
# Chains keep classes readable

A stage that does no more than add to the pool and edit bodies keeps what is read
back, wherever it fails. A chain takes its instructions through the stages one
after the other, and bodies and methods one after the other, so that what holds
of one visit holds of a whole class.
-/

namespace JvmClass

/-! ## Visits -/

/-- A bench has been led on: entries were added to its pool, and its body keeps
its attributes readable. -/
structure Workbench.LeadsTo (old new : Workbench) : Prop where
  /-- Entries were added. -/
  grows : old.pool.Grows new.pool
  /-- The attributes are read back if they were before. -/
  keepsReadable : old.cursor.code.KeepsReadable new.cursor.code

/-- A bench that is left as it is. -/
theorem Workbench.LeadsTo.refl (bench : Workbench) : bench.LeadsTo bench := ⟨.refl, .refl _⟩

/-- A bench that is led on twice. -/
theorem Workbench.LeadsTo.trans {old between new : Workbench} (first : old.LeadsTo between)
    (second : between.LeadsTo new) : old.LeadsTo new :=
  ⟨first.grows.trans second.grows, first.keepsReadable.trans second.keepsReadable⟩

/-- The stages of a type lead the bench on with every visit, be it with success
or not. -/
def Stage.LeadsOn (τ : Type) [Stage τ] : Prop :=
  ∀ (hierarchy : TypeHierarchy) (position : Nat) (stage : τ) (bench : Workbench),
    bench.LeadsTo ((Stage.visit hierarchy position).runOn (stage, bench)).2.2

namespace Chain

variable {τ : Type} [Stage τ] (hstages : Stage.LeadsOn τ) (hierarchy : TypeHierarchy)

/-- A chain of one stage takes one instruction after the other through it. -/
theorem walk_singleton (steps : Nat) (stage : τ) (pool : ConstantPool) (cursor : Cursor) :
    walk hierarchy (steps + 1) [stage] ⟨pool, cursor⟩ =
      if cursor.hasNext then
        match Bytecode.instructionLength cursor.code.bytes cursor.position with
        | .error e => (.error e, [stage], ⟨pool, cursor⟩)
        | .ok length =>
          match (Stage.visit hierarchy cursor.position).runOn
              (stage, ⟨pool, { cursor with position := cursor.position + length }⟩) with
          | (.error e, stage, bench) => (.error e, [stage], bench)
          | (.ok _, stage, bench) => walk hierarchy steps [stage] bench
      else (.ok (), [stage], ⟨pool, cursor⟩) := by
  rw [walk]
  split
  · rw [Cursor.runOn_next]
    cases Bytecode.instructionLength cursor.code.bytes cursor.position with
    | error e => rfl
    | ok length =>
      simp only [visitAt]
      rcases (Stage.visit hierarchy cursor.position).runOn
        (stage, ⟨pool, { cursor with position := cursor.position + length }⟩) with
        ⟨outcome, stage', bench'⟩
      cases outcome <;> rfl
  · rfl

/-- A walk of one stage that succeeds has taken the next instruction through it
and gone on. -/
theorem exists_visit_of_walk {steps : Nat} {stage : τ} {stages : Chain τ} {pool : ConstantPool}
    {cursor : Cursor} {final : Workbench} {length : Nat}
    (hl : Bytecode.instructionLength cursor.code.bytes cursor.position = .ok length)
    (h : walk hierarchy (steps + 1) [stage] ⟨pool, cursor⟩ = (.ok (), stages, final)) :
    ∃ after stage' bench', (Stage.visit hierarchy cursor.position).runOn
        (stage, ⟨pool, { cursor with position := cursor.position + length }⟩) =
          (.ok after, stage', bench') ∧
      walk hierarchy steps [stage'] bench' = (.ok (), stages, final) := by
  rw [walk_singleton, if_pos (Cursor.hasNext_of_instructionLength hl), hl] at h
  simp only at h
  rcases hvisit : (Stage.visit hierarchy cursor.position).runOn
    (stage, ⟨pool, { cursor with position := cursor.position + length }⟩) with
    ⟨outcome, stage', bench'⟩
  rw [hvisit] at h
  cases outcome with
  | error e => cases h
  | ok after => exact ⟨after, stage', bench', rfl, h⟩

include hstages

/-- Taking an instruction through stages leads the bench on. -/
theorem leadsTo_visitAt (position : Nat) (done stages : List τ) (bench : Workbench) :
    bench.LeadsTo (visitAt hierarchy position done stages bench).2.2 := by
  induction stages generalizing position done bench with
  | nil => exact .refl bench
  | cons stage stages ih =>
    have hvisit := hstages hierarchy position stage bench
    unfold visitAt
    rcases hrun : (Stage.visit hierarchy position).runOn (stage, bench) with
      ⟨outcome, stage', bench'⟩
    rw [hrun] at hvisit
    cases outcome with
    | error e => exact hvisit
    | ok position' => exact hvisit.trans (ih position' (stage' :: done) bench')

/-- Taking the instructions of a body through stages leads the bench on. -/
theorem leadsTo_walk (steps : Nat) (stages : Chain τ) (bench : Workbench) :
    bench.LeadsTo (walk hierarchy steps stages bench).2.2 := by
  induction steps generalizing stages bench with
  | zero => exact .refl bench
  | succ steps ih =>
    obtain ⟨pool, cursor⟩ := bench
    unfold walk
    by_cases hnext : cursor.hasNext = true
    · rw [if_pos hnext]
      have hcode := cursor.code_next
      rcases hrun : Cursor.next.runOn cursor with ⟨outcome, cursor'⟩
      rw [hrun] at hcode
      have hmoved : Workbench.LeadsTo ⟨pool, cursor⟩ ⟨pool, cursor'⟩ :=
        ⟨.refl, .of_eq (congrArg Code.attributes hcode)⟩
      cases outcome with
      | error e => exact hmoved
      | ok position =>
        have hvisit := leadsTo_visitAt hstages hierarchy position [] stages ⟨pool, cursor'⟩
        simp only
        rcases hvisited : visitAt hierarchy position [] stages ⟨pool, cursor'⟩ with
          ⟨outcome, stages', bench'⟩
        rw [hvisited] at hvisit
        cases outcome with
        | error e => exact hmoved.trans hvisit
        | ok p => exact (hmoved.trans hvisit).trans (ih stages' bench')
    · rw [if_neg hnext]
      exact .refl _

omit hstages in
/-- Reserving slots changes nothing of a body but its limits. -/
theorem reserve_unchanged (stages : Chain τ) (code : Code) :
    ((reserve stages).runOn code).2.bytes = code.bytes ∧
      ((reserve stages).runOn code).2.handlers = code.handlers ∧
      ((reserve stages).runOn code).2.attributes = code.attributes := by
  unfold reserve
  simp only [Edit.runOn_bind, Edit.runOn_get, Edit.runOn_lift, Edit.runOn_modify]
  rcases addLimited .maxLocals code.maxLocals _ with e | maxLocals
  · exact ⟨rfl, rfl, rfl⟩
  · simp only
    rcases addLimited .maxStack code.maxStack _ with e | maxStack
    · exact ⟨rfl, rfl, rfl⟩
    · exact ⟨rfl, rfl, rfl⟩

omit hstages in
/-- A chain is run over a body by taking its instructions through the stages,
and, if that succeeds, by reserving slots for them. -/
theorem runOn_applyToCode (stages : Chain τ) (pool : ConstantPool) (code : Code) :
    (applyToCode hierarchy).runOn (stages, pool, code) =
      match walk hierarchy (stepsFor code) (stages.map (Stage.reset pool code))
          ⟨pool, .ofCode code⟩ with
      | (.error e, stages, bench) => (.error e, stages, bench.pool, bench.cursor.code)
      | (.ok (), stages, bench) =>
        let reserved := (reserve (stages.map Stage.clean)).runOn bench.cursor.code
        (reserved.1, stages.map Stage.clean, bench.pool, reserved.2) := by
  unfold applyToCode Edit.runOn
  simp only [ExceptT.mk, ExceptT.run]
  rcases walk hierarchy (stepsFor code) (stages.map (Stage.reset pool code))
    ⟨pool, .ofCode code⟩ with ⟨outcome, stages', ⟨pool', cursor'⟩⟩
  cases outcome <;> rfl

/-- A chain that is run over a body adds to the pool and keeps the attributes of
the body readable. -/
theorem applyToCode_leadsTo (stages : Chain τ) (pool : ConstantPool) (code : Code) :
    pool.Grows ((applyToCode hierarchy).runOn (stages, pool, code)).2.2.1 ∧
      code.KeepsReadable ((applyToCode hierarchy).runOn (stages, pool, code)).2.2.2 := by
  have hwalk := leadsTo_walk hstages hierarchy (stepsFor code)
    (stages.map (Stage.reset pool code)) ⟨pool, .ofCode code⟩
  rw [runOn_applyToCode]
  rcases hrun : walk hierarchy (stepsFor code) (stages.map (Stage.reset pool code))
    ⟨pool, .ofCode code⟩ with ⟨outcome, stages', ⟨pool', cursor'⟩⟩
  rw [hrun] at hwalk
  cases outcome with
  | error e => exact ⟨hwalk.grows, hwalk.keepsReadable⟩
  | ok u =>
    have hreserve := (reserve_unchanged (stages'.map Stage.clean) cursor'.code).2.2
    exact ⟨hwalk.grows, hwalk.keepsReadable.trans (.of_eq hreserve)⟩

omit hstages in
/-- A chain is run over the body of a method, if it has one. -/
theorem runOn_applyToMethod (stages : Chain τ) (pool : ConstantPool) (m : Method) :
    (applyToMethod hierarchy).runOn (stages, pool, m) =
      match m.code? with
      | none => (.ok false, stages, pool, m)
      | some code =>
        let run := (applyToCode hierarchy).runOn (stages, pool, code)
        (run.1.map fun _ => true, run.2.1, run.2.2.1, m.withCode run.2.2.2) := by
  unfold applyToMethod Edit.runOn
  simp only [ExceptT.mk, ExceptT.run]
  cases m.code? <;> rfl

/-- A chain that is run over a method adds to the pool. -/
theorem grows_applyToMethod (stages : Chain τ) (pool : ConstantPool) (m : Method) :
    pool.Grows ((applyToMethod hierarchy).runOn (stages, pool, m)).2.2.1 := by
  rw [runOn_applyToMethod]
  cases m.code? with
  | none => exact .refl
  | some code => exact (applyToCode_leadsTo hstages hierarchy stages pool code).1

/-- A chain that is run over a method keeps it readable. -/
theorem readable_applyToMethod (stages : Chain τ) {pool : ConstantPool} {m : Method}
    (hm : m.Readable pool) :
    ((applyToMethod hierarchy).runOn (stages, pool, m)).2.2.2.Readable
      ((applyToMethod hierarchy).runOn (stages, pool, m)).2.2.1 := by
  rw [runOn_applyToMethod]
  cases hcode : m.code? with
  | none => exact hm
  | some code =>
    obtain ⟨hgrows, hkeeps⟩ := applyToCode_leadsTo hstages hierarchy stages pool code
    exact (hm.editCode hcode hkeeps).grows hgrows

/-- A chain that is run over methods adds to the pool. -/
theorem grows_applyToMethods (done methods : List Method) (stages : Chain τ)
    (pool : ConstantPool) :
    pool.Grows (applyToMethods hierarchy done methods stages pool).2.2.1 := by
  induction methods generalizing done stages pool with
  | nil => exact .refl
  | cons m methods ih =>
    have hgrows := grows_applyToMethod hstages hierarchy stages pool m
    unfold applyToMethods
    rcases hrun : (applyToMethod hierarchy).runOn (stages, pool, m) with
      ⟨outcome, stages', pool', m'⟩
    rw [hrun] at hgrows
    cases outcome with
    | error e => exact hgrows
    | ok found => exact hgrows.trans (ih (m' :: done) stages' pool')

/-- A chain that is run over methods keeps them readable, and those before them
as well. -/
theorem readable_applyToMethods {done methods : List Method} (stages : Chain τ)
    {pool : ConstantPool} (hdone : ∀ m ∈ done, m.Readable pool)
    (hmethods : ∀ m ∈ methods, m.Readable pool) :
    ∀ m ∈ (applyToMethods hierarchy done methods stages pool).2.2.2,
      m.Readable (applyToMethods hierarchy done methods stages pool).2.2.1 := by
  induction methods generalizing done stages pool with
  | nil => exact fun m hm => hdone m (List.mem_reverse.mp hm)
  | cons m methods ih =>
    have hgrows := grows_applyToMethod hstages hierarchy stages pool m
    have hfirst := readable_applyToMethod hstages hierarchy stages (hmethods m List.mem_cons_self)
    unfold applyToMethods
    rcases hrun : (applyToMethod hierarchy).runOn (stages, pool, m) with
      ⟨outcome, stages', pool', m'⟩
    rw [hrun] at hgrows hfirst
    have hdone' : ∀ b ∈ done, b.Readable pool' := fun b hb => (hdone b hb).grows hgrows
    have hlater : ∀ b ∈ methods, b.Readable pool' := fun b hb =>
      (hmethods b (List.mem_cons_of_mem m hb)).grows hgrows
    cases outcome with
    | error e =>
      intro b hb
      rcases List.mem_append.mp hb with hb | hb
      · exact hdone' b (List.mem_reverse.mp hb)
      · rcases List.mem_cons.mp hb with rfl | hb
        · exact hfirst
        · exact hlater b hb
    | ok found =>
      refine ih stages' (fun b hb => ?_) hlater
      rcases List.mem_cons.mp hb with rfl | hb
      · exact hfirst
      · exact hdone' b hb

/-- A chain that is run over a class adds to its pool. -/
theorem grows_applyToClass (stages : Chain τ) (c : ClassFile) :
    c.pool.Grows ((applyToClass hierarchy).runOn (stages, c)).2.2.pool := by
  unfold applyToClass Edit.runOn
  simp only [ExceptT.mk, ExceptT.run]
  split
  · exact .refl
  · exact grows_applyToMethods hstages hierarchy [] c.methods stages c.pool

/-- A chain that is run over a class keeps it readable, be it with success or
not. -/
theorem readable_applyToClass (stages : Chain τ) {c : ClassFile} (hc : c.Readable) :
    ((applyToClass hierarchy).runOn (stages, c)).2.2.Readable := by
  unfold applyToClass Edit.runOn
  simp only [ExceptT.mk, ExceptT.run]
  split
  · exact hc
  · have hgrows := grows_applyToMethods hstages hierarchy [] c.methods stages c.pool
    exact
      { pool := hgrows.consistent hc.pool
        fields := fun f hf a ha => (hc.fields f hf a ha).grows hgrows
        methods :=
          readable_applyToMethods hstages hierarchy stages (fun _ h => by cases h) hc.methods
        attributes := fun a ha => (hc.attributes a ha).grows hgrows }

end Chain

/-! ## Redirections -/

namespace FieldRedirect

/-- Interning the new field only adds to the pool. -/
theorem onlyAdds_internTarget (stage : FieldRedirect) (descriptor : String) :
    ConstantPool.OnlyAdds (stage.internTarget descriptor) :=
  ConstantPool.onlyAdds_bind (ConstantPool.onlyAdds_internNameAndType ..) fun _ =>
    ConstantPool.onlyAdds_bind (ConstantPool.onlyAdds_internSymbol ..) fun _ =>
      ConstantPool.onlyAdds_intern _

/-- Looking for the index of the new field only adds to the pool. -/
theorem grows_targetIndex (stage : FieldRedirect) (descriptor : String) (pool : ConstantPool) :
    pool.Grows (stage.targetIndex descriptor pool).2.2 := by
  have hadds := onlyAdds_internTarget stage descriptor
  unfold targetIndex
  split
  · exact .refl
  · split
    · next hrun => exact hadds.grows_of_eq hrun
    · next hrun => exact hadds.grows_of_eq hrun

/-- A redirection leads the bench on with every visit. -/
theorem leadsOn : Stage.LeadsOn FieldRedirect := by
  intro hierarchy position stage bench
  obtain ⟨pool, cursor⟩ := bench
  show Workbench.LeadsTo _ ((redirectAccess hierarchy position).runOn (stage, ⟨pool, cursor⟩)).2.2
  unfold redirectAccess Edit.runOn
  simp only [ExceptT.mk, ExceptT.run]
  split
  · exact .refl _
  · exact .refl _
  next field _ =>
  have hgrows := grows_targetIndex stage field.descriptor pool
  split
  · next htarget =>
    rw [htarget] at hgrows
    exact ⟨hgrows, .refl _⟩
  · next i stage' pool' htarget =>
    rw [htarget] at hgrows
    exact ⟨hgrows, Cursor.keepsReadable_write (position + 1) (Codec.bytesOfU16 i) cursor⟩

end FieldRedirect

end JvmClass
