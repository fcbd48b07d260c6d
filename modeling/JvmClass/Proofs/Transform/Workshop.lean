import JvmClass.Proofs.Transform.FieldRedirect
import JvmClass.Proofs.Transform.Recording

/-!
# Redirections over many pools

A chain of redirections works on bodies of several pools, one after the other and
again, while entries are added to the pools and pools are copied. What a stage
remembers is remembered of one pool only, and no other pool has its identity. So
whatever happens, and whatever fails, an operand that a stage writes leads to the
new field in the pool of the body.
-/

namespace JvmClass

/-! ## Workshops -/

/-- A chain with the pools that it works on. -/
structure Workshop (τ : Type) where
  /-- The chain. -/
  chain : Chain τ
  /-- The pools, by identity. -/
  pools : Nat → Option ConstantPool

/-- Something that is done with one pool. -/
inductive Job where
  /-- The chain is run over a body. -/
  | code (hierarchy : TypeHierarchy) (body : Code)
  /-- The chain is run over the body of a method. -/
  | method (hierarchy : TypeHierarchy) (m : Method)
  /-- The chain is run over a class that owns the pool. -/
  | classFile (hierarchy : TypeHierarchy) (c : ClassFile)
  /-- An entry is asked for. -/
  | add (addition : ConstantPool.Addition)
  /-- The pool gets another owner. -/
  | own (owner : UInt16)

/-- Where a new pool comes from. -/
inductive Origin where
  /-- It is a copy of another pool. -/
  | copy (id : Nat)
  /-- It is made without entries. -/
  | empty
  /-- It is made for a new class. -/
  | ofClass (name : String)
  /-- It is read. -/
  | read (bytes : List UInt8)

/-- Something that happens in a workshop. -/
inductive Event where
  /-- Something is done with a pool. -/
  | work (id : Nat) (job : Job)
  /-- A pool is made, with an identity that is meant to be new. -/
  | make (fresh : Nat) (origin : Origin)

/-- What becomes of the chain and of the pool. A run that fails leaves both as it
has changed them. -/
def Job.run {τ : Type} [Stage τ] (job : Job) (chain : Chain τ) (pool : ConstantPool) :
    Chain τ × ConstantPool :=
  match job with
  | .code hierarchy body =>
    let run := (Chain.applyToCode hierarchy).runOn (chain, pool, body)
    (run.2.1, run.2.2.1)
  | .method hierarchy m =>
    let run := (Chain.applyToMethod hierarchy).runOn (chain, pool, m)
    (run.2.1, run.2.2.1)
  | .classFile hierarchy c =>
    let run := (Chain.applyToClass hierarchy).runOn (chain, { c with pool })
    (run.2.1, run.2.2.pool)
  | .add addition => (chain, (addition.index.runOn pool).2)
  | .own owner => (chain, { pool with thisClass := owner })

/-- The new pool, if it can be made. -/
def Origin.pool? (pools : Nat → Option ConstantPool) (fresh : Nat) :
    Origin → Option ConstantPool
  | .copy id => (pools id).map fun pool => pool.withId fresh
  | .empty => some (.empty fresh)
  | .ofClass name => (ConstantPool.ofClass fresh name).toOption
  | .read bytes => (ConstantPool.decode fresh bytes).toOption.map Prod.fst

namespace Workshop

variable {τ : Type}

/-- A workshop with a pool under its identity, in place of the one that was
there. -/
def put (workshop : Workshop τ) (pool : ConstantPool) : Workshop τ :=
  { workshop with pools := Function.update workshop.pools pool.id (some pool) }

@[simp]
theorem pools_put_self (workshop : Workshop τ) (pool : ConstantPool) :
    (workshop.put pool).pools pool.id = some pool := Function.update_self ..

theorem pools_put_of_ne (workshop : Workshop τ) {pool : ConstantPool} {id : Nat}
    (h : id ≠ pool.id) : (workshop.put pool).pools id = workshop.pools id :=
  Function.update_of_ne h ..

variable [Stage τ]

/-- The workshop after an event. Nothing is done with a pool that is not there, and
no pool is made with an identity that another one has. -/
def step (workshop : Workshop τ) : Event → Workshop τ
  | .work id job =>
    match workshop.pools id with
    | none => workshop
    | some pool =>
      let (chain, pool) := job.run workshop.chain pool
      { workshop with chain }.put pool
  | .make fresh origin =>
    match origin.pool? workshop.pools fresh with
    | none => workshop
    | some pool => if (workshop.pools pool.id).isNone then workshop.put pool else workshop

/-- The workshop after some events. -/
def run (workshop : Workshop τ) (events : List Event) : Workshop τ :=
  events.foldl step workshop

/-- The workshop in which nothing has happened. -/
def start (chain : Chain τ) : Workshop τ := ⟨chain, fun _ => none⟩

end Workshop

/-! ## Recorded workshops -/

namespace Job

variable {τ : Type} [Stage τ]

/-- A recorded chain does what the chain does. -/
theorem run_stages (job : Job) (chain : Chain (Recorded τ)) (pool : ConstantPool) :
    job.run (Recorded.stages chain) pool =
      (Recorded.stages (job.run chain pool).1, (job.run chain pool).2) := by
  cases job with
  | code hierarchy body => simp only [run, Recorded.applyToCode_stages]
  | method hierarchy m => simp only [run, Recorded.applyToMethod_stages]
  | classFile hierarchy c => simp only [run, Recorded.applyToClass_stages]
  | add addition => rfl
  | own owner => rfl

/-- A pool that is worked on keeps its identity and its fields, and slots and
index of it go on to agree. -/
theorem run_pool (hstages : Stage.LeadsOn τ) (job : Job) (chain : Chain τ)
    {pool : ConstantPool} (hpool : pool.Consistent) :
    (job.run chain pool).2.id = pool.id ∧ (job.run chain pool).2.Consistent ∧
      ∀ i m, pool.field i = .ok m → (job.run chain pool).2.field i = .ok m := by
  have hgrows : ∀ {next}, pool.Grows next → next.id = pool.id ∧ next.Consistent ∧
      ∀ i m, pool.field i = .ok m → next.field i = .ok m := fun grows =>
    ⟨grows.id_eq.1, grows.consistent hpool, fun _ _ h => grows.memberOf h⟩
  cases job with
  | code hierarchy body =>
    exact hgrows (Chain.applyToCode_leadsTo hstages hierarchy chain pool body).1
  | method hierarchy m => exact hgrows (Chain.grows_applyToMethod hstages hierarchy chain pool m)
  | classFile hierarchy c =>
    exact hgrows (Chain.grows_applyToClass hstages hierarchy chain { c with pool })
  | add addition => exact hgrows (addition.onlyAdds.grows pool)
  | own owner => exact ⟨rfl, hpool.owned owner, fun _ _ h => h⟩

end Job

namespace Workshop

variable {τ : Type} [Stage τ]

/-- The workshop without its record. -/
def stages (workshop : Workshop (Recorded τ)) : Workshop τ :=
  ⟨Recorded.stages workshop.chain, workshop.pools⟩

theorem step_stages (workshop : Workshop (Recorded τ)) (event : Event) :
    workshop.stages.step event = (workshop.step event).stages := by
  cases event with
  | work id job =>
    simp only [step, stages]
    cases workshop.pools id with
    | none => rfl
    | some pool =>
      simp only [Job.run_stages]
      rfl
  | make fresh origin =>
    simp only [step, stages]
    cases origin.pool? workshop.pools fresh with
    | none => rfl
    | some pool =>
      by_cases hfree : (workshop.pools pool.id).isNone = true
      · simp only [hfree, if_true]
        rfl
      · simp only [hfree, if_false, Bool.false_eq_true]

/-- What happens in a recorded workshop happens without the record as well. -/
theorem run_stages (workshop : Workshop (Recorded τ)) (events : List Event) :
    workshop.stages.run events = (workshop.run events).stages := by
  induction events generalizing workshop with
  | nil => rfl
  | cons event events ih =>
    simp only [run, List.foldl_cons, step_stages]
    exact ih (workshop.step event)

end Workshop

/-! ## Redirections -/

namespace FieldRedirect

/-- A stage as it was made. -/
def unused (stage : FieldRedirect) : FieldRedirect := { stage with cached := none }

/-- A visit changes nothing about a stage but what it remembers. -/
theorem unused_redirectAccess (stage : FieldRedirect) (hierarchy : TypeHierarchy)
    (position : Nat) (bench : Workbench) :
    ((redirectAccess hierarchy position).runOn (stage, bench)).2.1.unused = stage.unused := by
  obtain ⟨pool, cursor⟩ := bench
  have htarget : ∀ descriptor, (stage.targetIndex descriptor pool).2.1.unused = stage.unused := by
    intro descriptor
    unfold targetIndex
    split
    · rfl
    · split <;> rfl
  unfold redirectAccess Edit.runOn
  simp only [ExceptT.mk, ExceptT.run]
  split
  · rfl
  · rfl
  next field _ =>
  have hkept := htarget field.descriptor
  split
  · next hrun =>
    rw [hrun] at hkept
    exact hkept
  · next hrun =>
    rw [hrun] at hkept
    exact hkept

/-- A visit that fails leaves the body as it is. -/
theorem code_of_redirectAccess_eq_error {stage stage' : FieldRedirect}
    {hierarchy : TypeHierarchy} {position : Nat} {bench bench' : Workbench} {e : Error}
    (h : (redirectAccess hierarchy position).runOn (stage, bench) = (.error e, stage', bench')) :
    bench'.cursor.code = bench.cursor.code := by
  obtain ⟨pool, cursor⟩ := bench
  unfold redirectAccess Edit.runOn at h
  simp only [ExceptT.mk, ExceptT.run] at h
  split at h
  · cases h
    rfl
  · cases h
  split at h
  · cases h
    rfl
  next i stage₁ pool₁ _ =>
  have hwrite : Cursor.writeU16 (position + 1) i cursor = _ :=
    Cursor.runOn_onCode (fun code => code.write (position + 1) (Codec.bytesOfU16 i)) cursor
  cases hcode : cursor.code.write (position + 1) (Codec.bytesOfU16 i) with
  | error e =>
    rw [hcode] at hwrite
    rw [hwrite] at h
    cases h
    rfl
  | ok code =>
    rw [hcode] at hwrite
    rw [hwrite] at h
    cases h

/-- What a visit has done to a body: nothing, or else it has put an index into the
instruction that leads to the new field. -/
def Writes (stage : FieldRedirect) (position : Nat) (before after : Workbench) : Prop :=
  after.cursor.code = before.cursor.code ∨
    ∃ i target, stage.LeadsToNew after.pool i target ∧
      position + 3 ≤ before.cursor.code.bytes.size ∧
      after.cursor.code = { before.cursor.code with
        bytes := Bytecode.overwrite before.cursor.code.bytes (position + 1) (Codec.bytesOfU16 i) }

/-- A visit writes no other index, be it with success or not. -/
theorem writes_redirectAccess {stage : FieldRedirect} {bench : Workbench}
    (hpool : bench.pool.Consistent) (hstage : stage.Settled bench.pool)
    (hierarchy : TypeHierarchy) (position : Nat) :
    stage.Writes position bench ((redirectAccess hierarchy position).runOn (stage, bench)).2.2 := by
  rcases hrun : (redirectAccess hierarchy position).runOn (stage, bench) with
    ⟨outcome, stage', pool', cursor'⟩
  cases outcome with
  | error e => exact .inl (code_of_redirectAccess_eq_error hrun)
  | ok after =>
    obtain ⟨-, hvisited⟩ := visited_of_redirectAccess hpool hstage hrun
    generalize hcode : cursor'.code = code at hvisited
    cases hvisited with
    | passed => exact .inl hcode
    | redirected _ _ hleads _ hroom => exact .inr ⟨_, _, hleads, hroom, hcode⟩

/-- What a visit has written leads to the new field, in the pool of the body as it
was after the visit and as it is now. The stage has kept its settings. -/
structure Sound (pools : Nat → Option ConstantPool) (stage : FieldRedirect)
    (v : Visit FieldRedirect) : Prop where
  /-- The stage has made the visit. -/
  settings : v.stage.unused = stage.unused
  /-- The body is one of the pool before and after the visit. -/
  grows : v.before.pool.Grows v.after.pool
  /-- What is written leads to the new field. -/
  writes : v.stage.Writes v.position v.before v.after
  /-- The pool of the body is there, and what led to the new field still does. -/
  remains : ∃ pool, pools v.before.pool.id = some pool ∧
    ∀ i m, v.after.pool.field i = .ok m → pool.field i = .ok m

/-- Pools are replaced by pools that have the same fields at the same places, and
others are added to them. -/
def FieldsRemain (pools pools' : Nat → Option ConstantPool) : Prop :=
  ∀ id pool, pools id = some pool →
    ∃ next, pools' id = some next ∧ ∀ i m, pool.field i = .ok m → next.field i = .ok m

/-- The pool that is worked on, among the others. -/
def withPool (pools : Nat → Option ConstantPool) (pool : ConstantPool) :
    Nat → Option ConstantPool :=
  Function.update pools pool.id (some pool)

section Sound

variable {pools pools' : Nat → Option ConstantPool} {stage stage' : FieldRedirect}
  {v : Visit FieldRedirect} {pool next : ConstantPool}

/-- A visit that is sound stays so. -/
theorem Sound.mono (h : Sound pools stage v) (hpools : FieldsRemain pools pools')
    (hstage : stage.unused = stage'.unused) : Sound pools' stage' v := by
  obtain ⟨pool, hpool, hfields⟩ := h.remains
  obtain ⟨next, hnext, hlater⟩ := hpools _ pool hpool
  exact ⟨h.settings.trans hstage, h.grows, h.writes, next, hnext, fun i m hm =>
    hlater i m (hfields i m hm)⟩

/-- One pool is replaced. -/
theorem fieldsRemain_update {id : Nat} (h : pools id = some pool)
    (hfields : ∀ i m, pool.field i = .ok m → next.field i = .ok m) :
    FieldsRemain pools (Function.update pools id (some next)) := by
  intro k found hfound
  by_cases hk : k = id
  · subst hk
    cases h.symm.trans hfound
    exact ⟨next, Function.update_self .., hfields⟩
  · exact ⟨found, (Function.update_of_ne hk ..).trans hfound, fun _ _ hm => hm⟩

/-- The pool that is worked on is replaced. -/
theorem fieldsRemain_put (pools : Nat → Option ConstantPool) (hid : next.id = pool.id)
    (hfields : ∀ i m, pool.field i = .ok m → next.field i = .ok m) :
    FieldsRemain (withPool pools pool) (withPool pools next) := by
  have hremain := fieldsRemain_update
    (Function.update_self pool.id (some pool) pools) hfields
  rw [Function.update_idem, ← hid] at hremain
  unfold withPool
  rw [← hid]
  exact hremain

end Sound

/-- What a stage remembers and has recorded is right. -/
structure Kept (made : List FieldRedirect) (pools : Nat → Option ConstantPool)
    (recorded : Recorded FieldRedirect) : Prop where
  /-- The stage is one of those that were made. -/
  settings : recorded.stage.unused ∈ made
  /-- What it remembers leads to the new field, in a pool that is there. -/
  remembers : ∀ id i, recorded.stage.cached = some (id, i) →
    ∃ pool target, pools id = some pool ∧ recorded.stage.LeadsToNew pool i target
  /-- Its visits are sound. -/
  visits : ∀ v ∈ recorded.visits, Sound pools recorded.stage v

/-- What is right inside a run over bodies of a pool: nothing is remembered of
other pools. -/
structure Inside (made : List FieldRedirect) (pools : Nat → Option ConstantPool)
    (recorded : Recorded FieldRedirect) (pool : ConstantPool) : Prop where
  /-- What is remembered and recorded is right. -/
  kept : Kept made (withPool pools pool) recorded
  /-- What is remembered is remembered of this pool. -/
  settled : recorded.stage.Settled pool

section Kept

variable {made : List FieldRedirect} {pools pools' : Nat → Option ConstantPool}
  {recorded : Recorded FieldRedirect} {pool next : ConstantPool}

/-- What is right stays so when more happens to the pools. -/
theorem Kept.mono (h : Kept made pools recorded) (hpools : FieldsRemain pools pools') :
    Kept made pools' recorded := by
  refine ⟨h.settings, fun id i hcached => ?_, fun v hv => (h.visits v hv).mono hpools rfl⟩
  obtain ⟨pool, target, hpool, hfield, hnames⟩ := h.remembers id i hcached
  obtain ⟨next, hnext, hfields⟩ := hpools id pool hpool
  exact ⟨next, target, hnext, hfields i target hfield, hnames⟩

/-- What is remembered of the pool that is worked on is remembered of a pool that is
there. -/
theorem Settled.remembers_withPool {stage : FieldRedirect} (h : stage.Settled pool) (id : Nat)
    (i : UInt16) (hcached : stage.cached = some (id, i)) :
    ∃ found target, withPool pools pool id = some found ∧ stage.LeadsToNew found i target := by
  obtain ⟨rfl, target, hleads⟩ := h id i hcached
  exact ⟨pool, target, Function.update_self .., hleads⟩

/-- What is remembered of the pool that is worked on leads to the new field there. -/
theorem Kept.remembers_pool (h : Kept made (withPool pools pool) recorded) :
    recorded.stage.Remembers pool := by
  intro id i hcached hid
  obtain ⟨found, target, hfound, hleads⟩ := h.remembers id i hcached
  subst hid
  cases (Function.update_self ..).symm.trans hfound
  exact ⟨target, hleads⟩

end Kept

/-- Runs keep everything right. -/
theorem keeps_recorded (made : List FieldRedirect) (pools : Nat → Option ConstantPool) :
    Stage.Keeps (Recorded FieldRedirect)
      (fun recorded pool => Kept made (withPool pools pool) recorded) (Inside made pools) := by
  refine ⟨?adds, ?reset, ?visit, ?grows, Inside.kept, Inside.kept⟩
  case adds =>
    intro hierarchy position recorded bench
    exact leadsOn hierarchy position recorded.stage bench
  case reset =>
    intro recorded pool code h
    have hsettled := h.remembers_pool.settled_forgetOther
    refine ⟨⟨h.settings, hsettled.remembers_withPool, fun v hv => ?_⟩, hsettled⟩
    have hsound := h.visits v hv
    exact ⟨hsound.settings, hsound.grows, hsound.writes, hsound.remains⟩
  case grows =>
    intro recorded pool pool' hgrows h
    have hremain := fieldsRemain_put pools hgrows.id_eq.1 fun _ _ hm => hgrows.memberOf hm
    exact ⟨h.kept.mono hremain, h.settled.grows hgrows⟩
  case visit =>
    intro recorded bench hierarchy position hpool h
    have hgrows := (leadsOn hierarchy position recorded.stage bench).grows
    have hremain := fieldsRemain_put pools hgrows.id_eq.1 fun _ _ hm => hgrows.memberOf hm
    have hwrites := writes_redirectAccess hpool h.settled hierarchy position
    have hsettled := settled_redirectAccess hpool h.settled hierarchy position bench.cursor
    have hsettings := unused_redirectAccess recorded.stage hierarchy position bench
    rw [Recorded.runOn_visit]
    refine ⟨⟨hsettings ▸ h.kept.settings, hsettled.remembers_withPool, ?_⟩, hsettled⟩
    refine List.forall_mem_cons.mpr ⟨⟨hsettings.symm, hgrows, hwrites, ?_⟩, fun v hv => ?_⟩
    · refine ⟨_, ?_, fun _ _ hm => hm⟩
      rw [← hgrows.id_eq.1]
      exact Function.update_self ..
    · exact (h.kept.visits v hv).mono hremain hsettings.symm

/-- Whatever is done with a pool keeps everything right. -/
theorem kept_job {made : List FieldRedirect} {pools : Nat → Option ConstantPool} (job : Job)
    {chain : Chain (Recorded FieldRedirect)} {pool : ConstantPool} (hpool : pool.Consistent)
    (hchain : ∀ recorded ∈ chain, Kept made (withPool pools pool) recorded) :
    ∀ recorded ∈ (job.run chain pool).1,
      Kept made (withPool pools (job.run chain pool).2) recorded := by
  have hkeeps := keeps_recorded made pools
  obtain ⟨hid, -, hfields⟩ := job.run_pool hkeeps.adds chain hpool
  have hremain := fieldsRemain_put pools hid hfields
  cases job with
  | code hierarchy body => exact hkeeps.applyToCode hierarchy body hpool hchain
  | method hierarchy m => exact hkeeps.applyToMethod hierarchy m hpool hchain
  | classFile hierarchy c =>
    have hclass : ConstantPool.Consistent { c with pool }.pool := hpool
    exact hkeeps.applyToClass hierarchy hclass hchain
  | add addition => exact fun recorded hr => (hchain recorded hr).mono hremain
  | own owner => exact fun recorded hr => (hchain recorded hr).mono hremain

end FieldRedirect

namespace Workshop

open FieldRedirect

/-- Every pool is found under its identity, and what is remembered and recorded of
it is right. -/
structure Sound (made : List FieldRedirect) (workshop : Workshop (Recorded FieldRedirect)) :
    Prop where
  /-- No two pools have one identity. -/
  ids : ∀ id pool, workshop.pools id = some pool → pool.id = id
  /-- Slots and index of every pool agree. -/
  consistent : ∀ id pool, workshop.pools id = some pool → pool.Consistent
  /-- What is remembered and recorded is right. -/
  kept : ∀ recorded ∈ workshop.chain, Kept made workshop.pools recorded

section Sound

variable {made : List FieldRedirect} {workshop : Workshop (Recorded FieldRedirect)}

/-- Nothing is remembered at the beginning. -/
theorem sound_start {chain : Chain FieldRedirect}
    (hchain : ∀ stage ∈ chain, stage.cached = none) :
    Sound chain (start (chain.map Recorded.start)) := by
  refine ⟨nofun, nofun, fun recorded hrecorded => ?_⟩
  obtain ⟨stage, hstage, rfl⟩ := List.mem_map.mp hrecorded
  have hcached := hchain stage hstage
  have hunused : stage.unused = stage := by
    unfold unused
    rw [← hcached]
  refine ⟨hunused.symm ▸ hstage, fun id i hremembered => ?_, fun v hv => ?_⟩
  · cases hcached.symm.trans hremembered
  · exact absurd hv List.not_mem_nil

/-- A pool is put in place, and everything is right with it. -/
theorem Sound.put {pools : Nat → Option ConstantPool} {chain : Chain (Recorded FieldRedirect)}
    {pool : ConstantPool} (hids : ∀ id pool, pools id = some pool → pool.id = id)
    (hconsistent : ∀ id pool, pools id = some pool → pool.Consistent) (hpool : pool.Consistent)
    (hchain : ∀ recorded ∈ chain, Kept made (withPool pools pool) recorded) :
    Sound made (Workshop.put ⟨chain, pools⟩ pool) := by
  refine ⟨fun id found hfound => ?_, fun id found hfound => ?_, hchain⟩
  · by_cases hk : id = pool.id
    · subst hk
      cases (pools_put_self ..).symm.trans hfound
      rfl
    · exact hids id found ((pools_put_of_ne _ hk).symm.trans hfound)
  · by_cases hk : id = pool.id
    · subst hk
      cases (pools_put_self ..).symm.trans hfound
      exact hpool
    · exact hconsistent id found ((pools_put_of_ne _ hk).symm.trans hfound)

/-- Work keeps everything right. -/
theorem Sound.work (h : Sound made workshop) (id : Nat) (job : Job) :
    Sound made (workshop.step (.work id job)) := by
  simp only [step]
  cases hfound : workshop.pools id with
  | none => exact h
  | some pool =>
    have hpool := h.consistent id pool hfound
    have hsame : withPool workshop.pools pool = workshop.pools := by
      unfold withPool
      rw [h.ids id pool hfound, ← hfound]
      exact Function.update_eq_self ..
    have hadds := (keeps_recorded made workshop.pools).adds
    obtain ⟨-, hconsistent, -⟩ := job.run_pool hadds workshop.chain hpool
    exact .put h.ids h.consistent hconsistent (kept_job job hpool (hsame.symm ▸ h.kept))

/-- What a step that may fail gives. -/
theorem toOption_eq_some_iff {α : Type} {step : Except Error α} {a : α} :
    step.toOption = some a ↔ step = .ok a := by
  cases step with
  | error e => exact ⟨nofun, nofun⟩
  | ok b => exact ⟨fun h => by cases h; rfl, fun h => by cases h; rfl⟩

/-- A new pool is consistent. -/
theorem consistent_of_pool? {pools : Nat → Option ConstantPool}
    (hpools : ∀ id pool, pools id = some pool → pool.Consistent) {fresh : Nat} {origin : Origin}
    {pool : ConstantPool} (h : origin.pool? pools fresh = some pool) : pool.Consistent := by
  cases origin with
  | copy id =>
    obtain ⟨found, hfound, rfl⟩ := Option.map_eq_some_iff.mp h
    exact (hpools id found hfound).withId fresh
  | empty =>
    cases h
    exact ConstantPool.consistent_empty fresh
  | ofClass name =>
    have hmade := toOption_eq_some_iff.mp h
    exact (ConstantPool.Reachable.ofClass hmade).consistent
  | read bytes =>
    obtain ⟨⟨found, rest⟩, hread, rfl⟩ := Option.map_eq_some_iff.mp h
    exact (ConstantPool.Reachable.decode (toOption_eq_some_iff.mp hread)).consistent

/-- A new pool keeps everything right: it has an identity that nothing is remembered
of. -/
theorem Sound.make (h : Sound made workshop) (fresh : Nat) (origin : Origin) :
    Sound made (workshop.step (.make fresh origin)) := by
  simp only [step]
  cases hpool : origin.pool? workshop.pools fresh with
  | none => exact h
  | some pool =>
    simp only
    split
    · next hfree =>
      have hremain : FieldsRemain workshop.pools (withPool workshop.pools pool) := by
        intro id found hfound
        have hk : id ≠ pool.id := by
          rintro rfl
          rw [hfound] at hfree
          cases hfree
        exact ⟨found, (Function.update_of_ne hk ..).trans hfound, fun _ _ hm => hm⟩
      exact .put h.ids h.consistent (consistent_of_pool? h.consistent hpool)
        fun recorded hrecorded => (h.kept recorded hrecorded).mono hremain
    · exact h

/-- Whatever happens keeps everything right. -/
theorem Sound.run (h : Sound made workshop) (events : List Event) :
    Sound made (workshop.run events) := by
  induction events generalizing workshop with
  | nil => exact h
  | cons event events ih =>
    cases event with
    | work id job => exact ih (h.work id job)
    | make fresh origin => exact ih (h.make fresh origin)

end Sound

/-- A chain of fresh redirections works on bodies, methods and classes of any number
of pools, in any order, and in between entries are added and pools are made, copied
and read, whatever fails. Every pool is found under its identity. A visit of a stage
either leaves the body as it is, or it puts an index into the instruction that leads
to a field of the new class, under its new name, in the pool of the body: right after
the visit, and for as long as the pool is there. The record of the visits is one of
what the chain itself does. -/
theorem redirects_within_pools {chain : Chain FieldRedirect}
    (hchain : ∀ stage ∈ chain, stage.cached = none) (events : List Event) :
    ((start (chain.map Recorded.start)).run events).stages = (start chain).run events ∧
      (∀ id pool, ((start chain).run events).pools id = some pool → pool.id = id) ∧
      ∀ recorded ∈ ((start (chain.map Recorded.start)).run events).chain,
        ∀ v ∈ recorded.visits, v.stage.unused ∈ chain ∧
          (v.after.cursor.code = v.before.cursor.code ∨
            ∃ pool i target, ((start chain).run events).pools v.before.pool.id = some pool ∧
              v.after.pool.field i = .ok target ∧ pool.field i = .ok target ∧
              target.className = v.stage.newClass ∧ target.name = v.stage.newField ∧
              v.position + 3 ≤ v.before.cursor.code.bytes.size ∧
              v.after.cursor.code = { v.before.cursor.code with
                bytes := Bytecode.overwrite v.before.cursor.code.bytes (v.position + 1)
                  (Codec.bytesOfU16 i) }) := by
  have hstages : ((start (chain.map Recorded.start)).run events).stages =
      (start chain).run events := by
    rw [← run_stages]
    simp [stages, start, Recorded.stages, Recorded.start, Function.comp_def]
  have hpools : ((start (chain.map Recorded.start)).run events).pools =
      ((start chain).run events).pools := by
    rw [← hstages]
    rfl
  have hsound := (sound_start hchain).run events
  rw [← hpools]
  refine ⟨hstages, hsound.ids, fun recorded hrecorded v hv => ?_⟩
  have hkept := hsound.kept recorded hrecorded
  have hvisit := hkept.visits v hv
  refine ⟨hvisit.settings ▸ hkept.settings, ?_⟩
  obtain ⟨pool, hpool, hfields⟩ := hvisit.remains
  rcases hvisit.writes with hsame | ⟨i, target, ⟨hfield, hclass, hname⟩, hroom, hcode⟩
  · exact .inl hsame
  · have hlater := hfields i target hfield
    exact .inr ⟨pool, i, target, hpool, hfield, hlater, hclass, hname, hroom, hcode⟩

/-- A pool is read and copied, and the chain is run over a body of the first
one. -/
def twinEvents : List Event :=
  [.make 0 (.read twinBytes), .make 1 (.copy 0), .work 0 (.code .unknown (twinCode 6 9))]

/-- The pool that is read is there when the chain is run. -/
theorem run_twinEvents {τ : Type} [Stage τ] (chain : Chain τ) :
    ((start chain).run twinEvents).chain =
      ((Chain.applyToCode .unknown).runOn (chain, twinPool, twinCode 6 9)).2.1 := by
  have hid : twinPool.id = 0 := by decide +kernel
  have hread : (start chain).step (.make 0 (.read twinBytes)) = (start chain).put twinPool := rfl
  have hfound : ((start chain).put twinPool).pools 0 = some twinPool := by
    rw [← hid]
    exact pools_put_self ..
  have hfree : ((start chain).put twinPool).pools 1 = none := by
    rw [pools_put_of_ne _ (by rw [hid]; decide)]
    rfl
  have hcopied : ((start chain).put twinPool).step (.make 1 (.copy 0)) =
      ((start chain).put twinPool).put (twinPool.withId 1) := by
    simp only [step, Origin.pool?, hfound, Option.map_some, ConstantPool.withId, hfree,
      Option.isNone_none, if_true]
  have hthere : (((start chain).put twinPool).put (twinPool.withId 1)).pools 0 =
      some twinPool := by
    rw [pools_put_of_ne _ (by simp [ConstantPool.withId]), hfound]
  simp only [run, twinEvents, List.foldl_cons, List.foldl_nil, hread, hcopied]
  simp only [step, hthere]
  rfl

/-- The first access of the body gets the index of the new field in its pool. -/
theorem redirects_within_pools_twin :
    (∀ stage ∈ [twinRedirect], stage.cached = none) ∧
      ∃ recorded ∈ ((start [Recorded.start twinRedirect]).run twinEvents).chain,
        ∃ v ∈ recorded.visits, ∃ pool i target,
          ((start [twinRedirect]).run twinEvents).pools 0 = some pool ∧
            v.after.pool.field i = .ok target ∧ pool.field i = .ok target ∧
            target.className = "D" ∧ target.name = "g" ∧
            v.after.cursor.code.bytes = #[0xb2, 0, 14, 0xb2, 0, 9, 0xb1] := by
  have hfresh : ∀ stage ∈ [twinRedirect], stage.cached = none := by
    simp [twinRedirect, FieldRedirect.create]
  have hlength : Bytecode.instructionLength (twinCode 6 9).bytes 0 = .ok 3 := by decide +kernel
  obtain ⟨recorded, hchain, hmem⟩ :=
    Recorded.exists_visit_of_applyToCode .unknown twinRedirect twinPool hlength
  have hrecorded : recorded ∈ ((start [Recorded.start twinRedirect]).run twinEvents).chain := by
    rw [run_twinEvents, hchain]
    exact List.mem_singleton_self _
  obtain ⟨-, -, hvisits⟩ := redirects_within_pools hfresh twinEvents
  obtain ⟨-, hwritten⟩ := hvisits recorded hrecorded _ hmem
  have hid : twinPool.id = 0 := by decide +kernel
  have haccess : twinRedirect.accessAt? .unknown ⟨twinPool, ⟨twinCode 6 9, 3⟩⟩ 0 =
      .ok (some ⟨.field, 2, 5, "C", "f", "I"⟩) := by decide +kernel
  have hvisit := redirectAccess_of_known haccess rfl internTarget_twinPool
  have hbytes : ((redirectAccess .unknown 0).runOn (twinRedirect,
      ⟨twinPool, ⟨twinCode 6 9, 3⟩⟩)).2.2.cursor.code.bytes =
        #[0xb2, 0, 14, 0xb2, 0, 9, 0xb1] := by
    rw [hvisit]
    decide +kernel
  rcases hwritten with hsame | ⟨pool, i, target, hpool, hfield, hlater, hclass, hname, -⟩
  · have hbefore := (congrArg Code.bytes hsame).symm.trans hbytes
    exact absurd hbefore (by decide)
  · rw [hid] at hpool
    exact ⟨hfresh, recorded, hrecorded, _, hmem, pool, i, target, hpool, hfield, hlater, hclass,
      hname, hbytes⟩

end Workshop

end JvmClass
