import JvmClass.Proofs.Transform.Chain

/-!
# Recorded runs

A stage can keep a record of its visits and do nothing else than before. A run of
recorded stages gives what the run of the stages themselves gives, so that its
record tells what happened in that run. What every visit keeps, a run over a body
or a class keeps as well, be it with success or not.
-/

namespace JvmClass

/-- A visit that a stage has made. -/
structure Visit (τ : Type) where
  /-- The position of the instruction. -/
  position : Nat
  /-- The stage before the visit. -/
  stage : τ
  /-- The bench before the visit. -/
  before : Workbench
  /-- The bench after the visit, whether it succeeded or not. -/
  after : Workbench

/-- A stage with the visits that it has made, the last one first. -/
structure Recorded (τ : Type) where
  /-- The stage. -/
  stage : τ
  /-- Its visits. -/
  visits : List (Visit τ)

namespace Recorded

variable {τ : Type} [Stage τ]

/-- A stage without visits. -/
def start (stage : τ) : Recorded τ := ⟨stage, []⟩

instance : Stage (Recorded τ) where
  reset pool code recorded := { recorded with stage := Stage.reset pool code recorded.stage }
  visit hierarchy position := ExceptT.mk fun (recorded, bench) =>
    let (outcome, stage, after) := (Stage.visit hierarchy position).runOn (recorded.stage, bench)
    (outcome, ⟨stage, ⟨position, recorded.stage, bench, after⟩ :: recorded.visits⟩, after)
  clean recorded := { recorded with stage := Stage.clean recorded.stage }
  extraLocals recorded := Stage.extraLocals recorded.stage
  extraStack recorded := Stage.extraStack recorded.stage

/-- The stages of a recorded chain. -/
def stages (chain : Chain (Recorded τ)) : Chain τ := chain.map Recorded.stage

omit [Stage τ] in
/-- The stages of a chain whose records begin are its own. -/
theorem stages_start (chain : Chain τ) : stages (chain.map start) = chain := by
  rw [stages, List.map_map]
  exact List.map_id chain

/-- A recorded visit is the visit of the stage. -/
theorem runOn_visit (hierarchy : TypeHierarchy) (position : Nat) (recorded : Recorded τ)
    (bench : Workbench) :
    (Stage.visit hierarchy position).runOn (recorded, bench) =
      let run := (Stage.visit hierarchy position).runOn (recorded.stage, bench)
      (run.1, ⟨run.2.1, ⟨position, recorded.stage, bench, run.2.2⟩ :: recorded.visits⟩,
        run.2.2) := rfl

/-- Recorded stages need what the stages need. -/
theorem reserve_stages (chain : Chain (Recorded τ)) :
    Chain.reserve (stages chain) = Chain.reserve chain := by
  unfold Chain.reserve
  simp only [stages, List.map_map]
  rfl

section Runs

variable (hierarchy : TypeHierarchy)

theorem visitAt_stages (position : Nat) (done chain : Chain (Recorded τ)) (bench : Workbench) :
    Chain.visitAt hierarchy position (stages done) (stages chain) bench =
      let run := Chain.visitAt hierarchy position done chain bench
      (run.1, stages run.2.1, run.2.2) := by
  induction chain generalizing position done bench with
  | nil =>
    simp only [stages, Chain.visitAt, List.map_reverse, List.map_nil]
  | cons recorded chain ih =>
    have hcons : stages (recorded :: chain) = recorded.stage :: stages chain := rfl
    rw [hcons]
    unfold Chain.visitAt
    rw [runOn_visit]
    rcases (Stage.visit hierarchy position).runOn (recorded.stage, bench) with
      ⟨outcome, stage, after⟩
    cases outcome with
    | error e => simp [stages]
    | ok next =>
      exact ih next
        (⟨stage, ⟨position, recorded.stage, bench, after⟩ :: recorded.visits⟩ :: done) after

theorem walk_stages (steps : Nat) (chain : Chain (Recorded τ)) (bench : Workbench) :
    Chain.walk hierarchy steps (stages chain) bench =
      let run := Chain.walk hierarchy steps chain bench
      (run.1, stages run.2.1, run.2.2) := by
  induction steps generalizing chain bench with
  | zero => rfl
  | succ steps ih =>
    obtain ⟨pool, cursor⟩ := bench
    unfold Chain.walk
    split
    · rcases Cursor.next.runOn cursor with ⟨outcome, next⟩
      cases outcome with
      | error e => rfl
      | ok position =>
        have hvisit := visitAt_stages hierarchy position [] chain ⟨pool, next⟩
        simp only [stages, List.map_nil] at hvisit ⊢
        rw [hvisit]
        rcases Chain.visitAt hierarchy position [] chain ⟨pool, next⟩ with ⟨outcome, chain', after⟩
        cases outcome with
        | error e => rfl
        | ok p => exact ih chain' after
    · rfl

theorem applyToCode_stages (chain : Chain (Recorded τ)) (pool : ConstantPool) (code : Code) :
    (Chain.applyToCode hierarchy).runOn (stages chain, pool, code) =
      let run := (Chain.applyToCode hierarchy).runOn (chain, pool, code)
      (run.1, stages run.2.1, run.2.2) := by
  have hreset : (stages chain).map (Stage.reset pool code) =
      stages (chain.map (Stage.reset pool code)) := by
    simp only [stages, List.map_map]
    rfl
  rw [Chain.runOn_applyToCode, Chain.runOn_applyToCode, hreset, walk_stages]
  rcases Chain.walk hierarchy (Chain.stepsFor code) (chain.map (Stage.reset pool code))
    ⟨pool, .ofCode code⟩ with ⟨outcome, chain', after⟩
  cases outcome with
  | error e => rfl
  | ok u =>
    have hclean : (stages chain').map Stage.clean = stages (chain'.map Stage.clean) := by
      simp only [stages, List.map_map]
      rfl
    simp only [hclean, reserve_stages]

theorem applyToMethod_stages (chain : Chain (Recorded τ)) (pool : ConstantPool) (m : Method) :
    (Chain.applyToMethod hierarchy).runOn (stages chain, pool, m) =
      let run := (Chain.applyToMethod hierarchy).runOn (chain, pool, m)
      (run.1, stages run.2.1, run.2.2) := by
  rw [Chain.runOn_applyToMethod, Chain.runOn_applyToMethod]
  cases m.code? with
  | none => rfl
  | some code => simp only [applyToCode_stages]

theorem applyToMethods_stages (done methods : List Method) (chain : Chain (Recorded τ))
    (pool : ConstantPool) :
    Chain.applyToMethods hierarchy done methods (stages chain) pool =
      let run := Chain.applyToMethods hierarchy done methods chain pool
      (run.1, stages run.2.1, run.2.2) := by
  induction methods generalizing done chain pool with
  | nil => rfl
  | cons m methods ih =>
    unfold Chain.applyToMethods
    rw [applyToMethod_stages]
    rcases (Chain.applyToMethod hierarchy).runOn (chain, pool, m) with
      ⟨outcome, chain', pool', m'⟩
    cases outcome with
    | error e => rfl
    | ok found => exact ih (m' :: done) chain' pool'

theorem applyToClass_stages (chain : Chain (Recorded τ)) (c : ClassFile) :
    (Chain.applyToClass hierarchy).runOn (stages chain, c) =
      let run := (Chain.applyToClass hierarchy).runOn (chain, c)
      (run.1, stages run.2.1, run.2.2) := by
  unfold Chain.applyToClass Edit.runOn
  simp only [ExceptT.mk, ExceptT.run]
  have hempty : (stages chain).isEmpty = chain.isEmpty := by simp [stages]
  rw [hempty, applyToMethods_stages]
  split <;> rfl

/-- A chain of one stage goes on with its record. -/
theorem mem_visits_of_walk (steps : Nat) {recorded : Recorded τ} {v : Visit τ}
    (hv : v ∈ recorded.visits) (bench : Workbench) :
    ∃ later, (Chain.walk hierarchy steps [recorded] bench).2.1 = [later] ∧ v ∈ later.visits := by
  induction steps generalizing recorded bench with
  | zero => exact ⟨recorded, rfl, hv⟩
  | succ steps ih =>
    obtain ⟨pool, cursor⟩ := bench
    rw [Chain.walk_singleton]
    split
    · cases Bytecode.instructionLength cursor.code.bytes cursor.position with
      | error e => exact ⟨recorded, rfl, hv⟩
      | ok length =>
        simp only [runOn_visit]
        rcases (Stage.visit hierarchy cursor.position).runOn
          (recorded.stage, ⟨pool, { cursor with position := cursor.position + length }⟩) with
          ⟨outcome, stage, after⟩
        have hlater := List.mem_cons_of_mem (⟨cursor.position, recorded.stage,
          ⟨pool, { cursor with position := cursor.position + length }⟩, after⟩ : Visit τ) hv
        cases outcome with
        | error e => exact ⟨_, rfl, hlater⟩
        | ok p => exact ih hlater after
    · exact ⟨recorded, rfl, hv⟩

/-- The visit to the first instruction of a body is recorded. -/
theorem exists_visit_of_applyToCode (stage : τ) (pool : ConstantPool) {code : Code} {length : Nat}
    (hl : Bytecode.instructionLength code.bytes 0 = .ok length) :
    let before : Workbench := ⟨pool, ⟨code, length⟩⟩
    let run := (Stage.visit hierarchy 0).runOn (Stage.reset pool code stage, before)
    ∃ recorded, ((Chain.applyToCode hierarchy).runOn ([start stage], pool, code)).2.1 =
        [recorded] ∧ ⟨0, Stage.reset pool code stage, before, run.2.2⟩ ∈ recorded.visits := by
  intro before run
  let first : Recorded τ := ⟨run.2.1, [⟨0, Stage.reset pool code stage, before, run.2.2⟩]⟩
  have hnext : (Cursor.ofCode code).hasNext = true := Cursor.hasNext_of_instructionLength hl
  have hlength : Bytecode.instructionLength (Cursor.ofCode code).code.bytes
      (Cursor.ofCode code).position = .ok length := hl
  have hmoved : (⟨pool, { Cursor.ofCode code with
      position := (Cursor.ofCode code).position + length }⟩ : Workbench) = before := by
    simp only [before, Cursor.ofCode, Nat.zero_add]
  have hwalk : ∃ later, (Chain.walk hierarchy (Chain.stepsFor code)
      [Stage.reset pool code (start stage)] ⟨pool, .ofCode code⟩).2.1 = [later] ∧
        ⟨0, Stage.reset pool code stage, before, run.2.2⟩ ∈ later.visits := by
    have hsteps : Chain.stepsFor code = max 65535 code.bytes.size + 1 := rfl
    rw [hsteps, Chain.walk_singleton, if_pos hnext, hlength]
    have hfirst : ⟨0, Stage.reset pool code stage, before, run.2.2⟩ ∈ first.visits :=
      List.mem_cons_self
    have hvisit : (Stage.visit hierarchy (Cursor.ofCode code).position).runOn
        (Stage.reset pool code (start stage), before) = (run.1, first, run.2.2) := rfl
    simp only [hmoved, hvisit]
    cases run.1 with
    | error e => exact ⟨first, rfl, hfirst⟩
    | ok p => exact mem_visits_of_walk hierarchy _ hfirst run.2.2
  rw [Chain.runOn_applyToCode]
  obtain ⟨later, hlater, hmem⟩ := hwalk
  simp only [List.map_cons, List.map_nil]
  rcases hrun : Chain.walk hierarchy (Chain.stepsFor code) [Stage.reset pool code (start stage)]
    ⟨pool, .ofCode code⟩ with ⟨outcome, chain, bench⟩
  rw [hrun] at hlater
  cases outcome with
  | error e => exact ⟨later, hlater, hmem⟩
  | ok u =>
    refine ⟨Stage.clean later, ?_, hmem⟩
    simp only at hlater ⊢
    rw [hlater]
    rfl

end Runs

end Recorded

/-! ## What runs keep -/

/-- What holds of every stage between runs, and inside of them. A run that fails
leaves its stages as they are. -/
structure Stage.Keeps (τ : Type) [Stage τ] (Between Inside : τ → ConstantPool → Prop) :
    Prop where
  /-- Entries are added to the pool, and no more. -/
  adds : Stage.LeadsOn τ
  /-- A run begins. -/
  reset : ∀ {stage pool} (code : Code), Between stage pool →
    Inside (Stage.reset pool code stage) pool
  /-- The stage makes a visit. -/
  visit : ∀ {stage} {bench : Workbench} (hierarchy : TypeHierarchy) (position : Nat),
    bench.pool.Consistent → Inside stage bench.pool →
      Inside ((Stage.visit hierarchy position).runOn (stage, bench)).2.1
        ((Stage.visit hierarchy position).runOn (stage, bench)).2.2.pool
  /-- Another stage makes a visit. -/
  grows : ∀ {stage pool pool'}, ConstantPool.Grows pool pool' → Inside stage pool →
    Inside stage pool'
  /-- A run ends. -/
  clean : ∀ {stage pool}, Inside stage pool → Between (Stage.clean stage) pool
  /-- A run is given up. -/
  abort : ∀ {stage pool}, Inside stage pool → Between stage pool

namespace Stage.Keeps

variable {τ : Type} [Stage τ] {Between Inside : τ → ConstantPool → Prop}
  (keeps : Stage.Keeps τ Between Inside) (hierarchy : TypeHierarchy)

include keeps

theorem visitAt (position : Nat) {done chain : Chain τ} (bench : Workbench)
    (hpool : bench.pool.Consistent) (hdone : ∀ stage ∈ done, Inside stage bench.pool)
    (hchain : ∀ stage ∈ chain, Inside stage bench.pool) :
    ∀ stage ∈ (Chain.visitAt hierarchy position done chain bench).2.1,
      Inside stage (Chain.visitAt hierarchy position done chain bench).2.2.pool := by
  induction chain generalizing position done bench with
  | nil => exact fun stage hstage => hdone stage (List.mem_reverse.mp hstage)
  | cons stage chain ih =>
    have hvisit := keeps.visit hierarchy position hpool (hchain stage List.mem_cons_self)
    have hgrows := (keeps.adds hierarchy position stage bench).grows
    unfold Chain.visitAt
    rcases hrun : (Stage.visit hierarchy position).runOn (stage, bench) with
      ⟨outcome, stage', bench'⟩
    rw [hrun] at hvisit hgrows
    have hdone' : ∀ s ∈ stage' :: done, Inside s bench'.pool := by
      refine List.forall_mem_cons.mpr ⟨hvisit, fun s hs => keeps.grows hgrows (hdone s hs)⟩
    have hchain' : ∀ s ∈ chain, Inside s bench'.pool := fun s hs =>
      keeps.grows hgrows (hchain s (List.mem_cons_of_mem stage hs))
    cases outcome with
    | error e =>
      intro s hs
      rcases List.mem_append.mp hs with hs | hs
      · exact hdone' s (List.mem_cons_of_mem stage' (List.mem_reverse.mp hs))
      · rcases List.mem_cons.mp hs with rfl | hs
        · exact hvisit
        · exact hchain' s hs
    | ok next => exact ih next bench' (hgrows.consistent hpool) hdone' hchain'

theorem walk (steps : Nat) {chain : Chain τ} (bench : Workbench) (hpool : bench.pool.Consistent)
    (hchain : ∀ stage ∈ chain, Inside stage bench.pool) :
    ∀ stage ∈ (Chain.walk hierarchy steps chain bench).2.1,
      Inside stage (Chain.walk hierarchy steps chain bench).2.2.pool := by
  induction steps generalizing chain bench with
  | zero => exact hchain
  | succ steps ih =>
    obtain ⟨pool, cursor⟩ := bench
    unfold Chain.walk
    split
    · rcases Cursor.next.runOn cursor with ⟨outcome, next⟩
      cases outcome with
      | error e => exact hchain
      | ok position =>
        have hvisit := keeps.visitAt hierarchy position ⟨pool, next⟩ hpool
          (fun _ h => absurd h List.not_mem_nil) hchain
        have hgrows := (Chain.leadsTo_visitAt keeps.adds hierarchy position [] chain
          ⟨pool, next⟩).grows
        simp only
        rcases hrun : Chain.visitAt hierarchy position [] chain ⟨pool, next⟩ with
          ⟨outcome, chain', bench'⟩
        rw [hrun] at hvisit hgrows
        cases outcome with
        | error e => exact hvisit
        | ok p => exact ih bench' (hgrows.consistent hpool) hvisit
    · exact hchain

theorem applyToCode {chain : Chain τ} {pool : ConstantPool} (code : Code)
    (hpool : pool.Consistent) (hchain : ∀ stage ∈ chain, Between stage pool) :
    ∀ stage ∈ ((Chain.applyToCode hierarchy).runOn (chain, pool, code)).2.1,
      Between stage ((Chain.applyToCode hierarchy).runOn (chain, pool, code)).2.2.1 := by
  have hreset : ∀ stage ∈ chain.map (Stage.reset pool code), Inside stage pool := by
    intro stage hstage
    obtain ⟨before, hbefore, rfl⟩ := List.mem_map.mp hstage
    exact keeps.reset code (hchain before hbefore)
  have hwalk := keeps.walk hierarchy (Chain.stepsFor code) ⟨pool, .ofCode code⟩ hpool hreset
  rw [Chain.runOn_applyToCode]
  rcases hrun : Chain.walk hierarchy (Chain.stepsFor code) (chain.map (Stage.reset pool code))
    ⟨pool, .ofCode code⟩ with ⟨outcome, chain', bench⟩
  rw [hrun] at hwalk
  cases outcome with
  | error e => exact fun stage hstage => keeps.abort (hwalk stage hstage)
  | ok u =>
    intro stage hstage
    obtain ⟨before, hbefore, rfl⟩ := List.mem_map.mp hstage
    exact keeps.clean (hwalk before hbefore)

theorem applyToMethod {chain : Chain τ} {pool : ConstantPool} (m : Method)
    (hpool : pool.Consistent) (hchain : ∀ stage ∈ chain, Between stage pool) :
    ∀ stage ∈ ((Chain.applyToMethod hierarchy).runOn (chain, pool, m)).2.1,
      Between stage ((Chain.applyToMethod hierarchy).runOn (chain, pool, m)).2.2.1 := by
  rw [Chain.runOn_applyToMethod]
  cases m.code? with
  | none => exact hchain
  | some code => exact keeps.applyToCode hierarchy code hpool hchain

theorem applyToMethods (done methods : List Method) {chain : Chain τ} {pool : ConstantPool}
    (hpool : pool.Consistent) (hchain : ∀ stage ∈ chain, Between stage pool) :
    ∀ stage ∈ (Chain.applyToMethods hierarchy done methods chain pool).2.1,
      Between stage (Chain.applyToMethods hierarchy done methods chain pool).2.2.1 := by
  induction methods generalizing done chain pool with
  | nil => exact hchain
  | cons m methods ih =>
    have hmethod := keeps.applyToMethod hierarchy m hpool hchain
    have hgrows := Chain.grows_applyToMethod keeps.adds hierarchy chain pool m
    unfold Chain.applyToMethods
    rcases hrun : (Chain.applyToMethod hierarchy).runOn (chain, pool, m) with
      ⟨outcome, chain', pool', m'⟩
    rw [hrun] at hmethod hgrows
    cases outcome with
    | error e => exact hmethod
    | ok found => exact ih (m' :: done) (hgrows.consistent hpool) hmethod

/-- What holds of every stage before a run over a class holds after it. -/
theorem applyToClass {chain : Chain τ} {c : ClassFile} (hpool : c.pool.Consistent)
    (hchain : ∀ stage ∈ chain, Between stage c.pool) :
    ∀ stage ∈ ((Chain.applyToClass hierarchy).runOn (chain, c)).2.1,
      Between stage ((Chain.applyToClass hierarchy).runOn (chain, c)).2.2.pool := by
  unfold Chain.applyToClass Edit.runOn
  simp only [ExceptT.mk, ExceptT.run]
  split
  · exact hchain
  · exact keeps.applyToMethods hierarchy [] c.methods hpool hchain

end Stage.Keeps

end JvmClass
