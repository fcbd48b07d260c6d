import JvmClass.Proofs.Transform.FieldOperands

/-!
# Names under redirections

Where an operand leads after a run depends on the names that it showed before, and on
nothing else that differs from pool to pool. A chain takes every field through its
stages before it goes on to the next one, and each stage carries the descriptor of its
new field along. Taking all fields through one stage after the other gives the same.
-/

namespace JvmClass

/-! ## Sweeps -/

section Sweep

variable {σ α : Type} (step : σ → α → σ × α)

/-- Replace the items of a row in order, by a step that carries a state along. -/
def sweep : σ → List α → σ × List α
  | s, [] => (s, [])
  | s, a :: as =>
    let first := step s a
    let rest := sweep first.1 as
    (rest.1, first.2 :: rest.2)

/-- Replace one item by the same step in several states, one after the other. -/
def throughAll : List σ → α → List σ × α
  | [], a => ([], a)
  | s :: ss, a =>
    let first := step s a
    let rest := throughAll ss first.2
    (first.1 :: rest.1, rest.2)

/-- A sweep of several states is one of the first state, and then one of the others. -/
theorem sweep_throughAll_cons (s : σ) (ss : List σ) (as : List α) :
    sweep (throughAll step) (s :: ss) as =
      let first := sweep step s as
      let rest := sweep (throughAll step) ss first.2
      (first.1 :: rest.1, rest.2) := by
  induction as generalizing s ss with
  | nil => rfl
  | cons a as ih => simp only [sweep, throughAll, ih]

/-- **Item by item is state by state.** Taking every item through all states gives the same
as sweeping over all items with one state after the other. -/
theorem sweep_throughAll (ss : List σ) (as : List α) :
    sweep (throughAll step) ss as = throughAll (sweep step) ss as := by
  induction ss generalizing as with
  | nil =>
    induction as with
    | nil => rfl
    | cons a as ih => simp only [sweep, throughAll, ih]
  | cons s ss ih =>
    rw [sweep_throughAll_cons]
    simp only [throughAll, ih]

/-- Rows of items can be taken through the states row by row as well. -/
theorem sweep_sweep_throughAll (ss : List σ) (rows : List (List α)) :
    sweep (sweep (throughAll step)) ss rows = throughAll (sweep (sweep step)) ss rows := by
  have hrow : sweep (throughAll step) = throughAll (sweep step) :=
    funext₂ (sweep_throughAll step)
  rw [hrow, sweep_throughAll]

end Sweep

/-! ## Redirections of names -/

/-- The names of a field. -/
structure FieldNames where
  /-- The name of the class. -/
  className : String
  /-- The name of the field. -/
  name : String
  /-- The descriptor of the field. -/
  descriptor : String
  deriving DecidableEq

/-- The names of a member. -/
def MemberRef.names (m : MemberRef) : FieldNames := ⟨m.className, m.name, m.descriptor⟩

/-- A redirection with the descriptor of its new field, if there is one yet. -/
structure Naming where
  /-- The redirection, without what it remembers. -/
  settings : FieldRedirect
  /-- The descriptor of the new field. -/
  descriptor : Option String

/-- The names that a field has after a redirection. The first field gives its descriptor to
all others. -/
def Naming.redirect (hierarchy : TypeHierarchy) (naming : Naming) (f : FieldNames) :
    Naming × FieldNames :=
  if f.name == naming.settings.fieldName &&
      (f.className == naming.settings.className ||
        !naming.settings.isPrivate &&
          hierarchy f.className f.name == some naming.settings.className) then
    let descriptor := naming.descriptor.getD f.descriptor
    ({ naming with descriptor := some descriptor },
      ⟨naming.settings.newClass, naming.settings.newField, descriptor⟩)
  else (naming, f)

/-- The accesses among some instructions refer to fields with these names, in order. -/
def Bytecode.Shows (code : Bytecode) (pool : ConstantPool) (starts : List Nat)
    (names : List FieldNames) : Prop :=
  List.Forall₂ (fun p f => ∃ field, code.RefersTo pool p field ∧ field.names = f)
    (starts.filter code.accessesField) names

/-- Bytes that are the same show the same names, and so does a pool that has grown. -/
theorem Bytecode.Shows.congr {code code' : Bytecode} {pool pool' : ConstantPool}
    {starts : List Nat} {names : List FieldNames} (shows : code.Shows pool starts names)
    (grows : pool.Grows pool')
    (hbytes : ∀ p ∈ starts, ∀ j < 3, code'[p + j]? = code[p + j]?) :
    code'.Shows pool' starts names := by
  have hfilter : starts.filter code'.accessesField = starts.filter code.accessesField :=
    List.filter_congr fun p hp =>
      congrArg (Option.any Opcode.isFieldAccess) (hbytes p hp 0 (by omega))
  unfold Shows
  rw [hfilter]
  refine ((List.forall₂_and_left _ _).mpr ⟨fun p hp => (List.mem_filter.mp hp).1, shows⟩).imp ?_
  rintro p f ⟨hp, field, refers, hnames⟩
  exact ⟨field, (refers.congr (hbytes p hp)).grows grows, hnames⟩

/-- An instruction that accesses no field shows nothing. -/
theorem Bytecode.shows_cons_of_other {code : Bytecode} {pool : ConstantPool} {p : Nat}
    {starts : List Nat} {names : List FieldNames} (h : code.accessesField p = false) :
    code.Shows pool (p :: starts) names ↔ code.Shows pool starts names := by
  unfold Shows
  rw [List.filter_cons_of_neg (by rw [h]; decide)]

/-- An access shows the names of its field before those of the others. -/
theorem Bytecode.shows_cons_of_access {code : Bytecode} {pool : ConstantPool} {p : Nat}
    {starts : List Nat} {names : List FieldNames} (h : code.accessesField p = true) :
    code.Shows pool (p :: starts) names ↔ ∃ field later, names = MemberRef.names field :: later ∧
      code.RefersTo pool p field ∧ code.Shows pool starts later := by
  unfold Shows
  rw [List.filter_cons_of_pos h]
  constructor
  · intro shows
    cases shows with
    | cons hfirst hlater =>
      obtain ⟨field, refers, rfl⟩ := hfirst
      exact ⟨field, _, rfl, refers, hlater⟩
  · rintro ⟨field, later, rfl, refers, hlater⟩
    exact .cons ⟨field, refers, rfl⟩ hlater

namespace FieldRedirect

open Bytecode

/-- What a stage does to names, going by what it remembers. -/
def naming (pool : ConstantPool) (stage : FieldRedirect) : Naming :=
  ⟨{ stage with cached := none }, stage.keptDescriptor pool []⟩

section Naming

variable {stage stage' : FieldRedirect} {hierarchy : TypeHierarchy} {pool pool' : ConstantPool}
  {code new : Code} {p : Nat} {field : MemberRef}

/-- What a stage does to the names of a field. -/
theorem redirect_naming (stage : FieldRedirect) (hierarchy : TypeHierarchy) (pool : ConstantPool)
    (field : MemberRef) :
    (stage.naming pool).redirect hierarchy field.names =
      if stage.concerns hierarchy field then
        let descriptor := (stage.keptDescriptor pool []).getD field.descriptor
        (⟨{ stage with cached := none }, some descriptor⟩,
          ⟨stage.newClass, stage.newField, descriptor⟩)
      else (stage.naming pool, field.names) := rfl

/-- A fresh stage has no descriptor. -/
theorem naming_of_fresh (h : stage.cached = none) (pool : ConstantPool) :
    stage.naming pool = ⟨stage, none⟩ := by
  obtain ⟨className, fieldName, isPrivate, newClass, newField, cached⟩ := stage
  cases h
  rfl

/-- The descriptor that the next field gets is the remembered one, or else its own. -/
theorem keptDescriptor_cons (hstage : stage.Settled pool) (field : MemberRef)
    (later : List MemberRef) :
    stage.keptDescriptor pool (field :: later) =
      some ((stage.keptDescriptor pool []).getD field.descriptor) := by
  unfold keptDescriptor
  cases hcached : stage.cached with
  | none => rfl
  | some remembered =>
    obtain ⟨-, target, leads⟩ := hstage _ _ hcached
    simp only [leads.1]
    rfl

/-- What a settled stage does to names is the same when the pool has grown. -/
theorem naming_grows (hstage : stage.Settled pool) (grows : pool.Grows pool') :
    stage.naming pool' = stage.naming pool := by
  unfold naming keptDescriptor
  cases hcached : stage.cached with
  | none => rfl
  | some remembered =>
    obtain ⟨-, target, leads⟩ := hstage _ _ hcached
    simp only [leads.1, (leads.grows grows).1]

/-- A step on an access redirects its names, and the stage stays settled. -/
theorem Step.redirect_names (step : Step stage hierarchy pool code p stage' pool' new)
    (hpool : pool.Consistent) (hstage : stage.Settled pool)
    (refers : RefersTo code.bytes pool p field) :
    stage'.Settled pool' ∧ ∃ field', RefersTo new.bytes pool' p field' ∧
      (stage.naming pool).redirect hierarchy field.names = (stage'.naming pool', field'.names) := by
  rw [redirect_naming]
  cases step with
  | other h => cases h.symm.trans refers.access
  | passed other concerns =>
    cases refers.unique other
    rw [concerns]
    exact ⟨hstage, field, refers, rfl⟩
  | @redirected _ i _ _ other concerns target room =>
    cases refers.unique other
    obtain ⟨rfl, hgrows, target, leads, hkept⟩ := targetIndex_leadsToNew hpool hstage field target
    have hdescriptor :
        (stage.keptDescriptor pool []).getD field.descriptor = target.descriptor := by
      have h := keptDescriptor_grows hgrows (keptDescriptor_cons hstage field [])
      exact Option.some.inj (h.symm.trans (hkept []))
    have hoperand : u16At? (overwrite code.bytes (p + 1) (Codec.bytesOfU16 i)) (p + 1) = some i :=
      u16At?_of_bytes fun j hj => getElem?_overwrite_of_inside hj room
    have haccess : accessesField (overwrite code.bytes (p + 1) (Codec.bytesOfU16 i)) p = true := by
      unfold accessesField
      rw [getElem?_overwrite_of_outside (.inl (Nat.lt_succ_self p))]
      exact refers.access
    refine ⟨leads.settled, target, ⟨haccess, i, hoperand, leads.1⟩, ?_⟩
    rw [concerns]
    have hnaming : naming pool' { stage with cached := some (pool'.id, i) } =
        ⟨{ stage with cached := none }, some target.descriptor⟩ := by
      unfold naming keptDescriptor
      simp only [leads.1]
      rfl
    obtain ⟨-, hclass, hname⟩ := leads
    simp only [if_true, hdescriptor, hnaming, MemberRef.names, hclass, hname]

end Naming

section Runs

variable {hierarchy : TypeHierarchy} {stages stages' : Chain FieldRedirect}
  {pool pool' : ConstantPool} {code changed new : Code} {starts : List Nat} {p n : Nat}
  {field : MemberRef} {names : List FieldNames}

/-- What settled stages do to names is the same when the pool has grown. -/
theorem map_naming_grows (hstages : ∀ stage ∈ stages, stage.Settled pool)
    (grows : pool.Grows pool') : stages.map (naming pool') = stages.map (naming pool) :=
  List.map_congr_left fun stage hstage => naming_grows (hstages stage hstage) grows

/-- A pass over another instruction does nothing. -/
theorem Pass.of_other (pass : Pass hierarchy p stages pool code stages' pool' new)
    (h : accessesField code.bytes p = false) : stages' = stages ∧ pool' = pool ∧ new = code := by
  induction pass with
  | done => exact ⟨rfl, rfl, rfl⟩
  | step first _ ih =>
    cases first with
    | other =>
      obtain ⟨rfl, hpool, hcode⟩ := ih h
      exact ⟨rfl, hpool, hcode⟩
    | passed refers => cases h.symm.trans refers.access
    | redirected refers => cases h.symm.trans refers.access

/-- A pass over an access redirects its names with one stage after the other. -/
theorem Pass.redirect_names (pass : Pass hierarchy p stages pool code stages' pool' new)
    (hpool : pool.Consistent) (hstages : ∀ stage ∈ stages, stage.Settled pool)
    (refers : RefersTo code.bytes pool p field) :
    (∀ stage ∈ stages', stage.Settled pool') ∧ ∃ field', RefersTo new.bytes pool' p field' ∧
      throughAll (Naming.redirect hierarchy) (stages.map (naming pool)) field.names =
        (stages'.map (naming pool'), field'.names) := by
  induction pass generalizing field with
  | done => exact ⟨hstages, field, refers, rfl⟩
  | step first later ih =>
    have hothers := fun s hs => hstages s (List.mem_cons_of_mem _ hs)
    obtain ⟨hsettled, between, hbetween, hfirst⟩ :=
      first.redirect_names hpool (hstages _ List.mem_cons_self) refers
    obtain ⟨hlast, field', hfield', hrest⟩ := ih (first.grows.consistent hpool)
      (fun s hs => (hothers s hs).grows first.grows) hbetween
    rw [map_naming_grows hothers first.grows] at hrest
    refine ⟨fun s hs => ?_, field', hfield', ?_⟩
    · rcases List.mem_cons.mp hs with rfl | hs
      · exact hsettled.grows later.grows
      · exact hlast s hs
    · rw [List.map_cons, throughAll, hfirst]
      simp only [hrest]
      rw [List.map_cons, naming_grows hsettled later.grows]

/-- **What a run does to names.** The stages of a chain take the names that the accesses of a
body show, one access after the other, and whatever the names are then, the accesses show
them in the pool that the run leaves. -/
theorem Trail.redirect_names (trail : Trail hierarchy starts stages pool code stages' pool' new)
    (walk : ∃ first, Walk code.bytes first starts code.bytes.size) (hpool : pool.Consistent)
    (hstages : ∀ stage ∈ stages, stage.Settled pool) (shows : Shows code.bytes pool starts names) :
    (∀ stage ∈ stages', stage.Settled pool') ∧
      (sweep (throughAll (Naming.redirect hierarchy)) (stages.map (naming pool)) names).1 =
        stages'.map (naming pool') ∧
      Shows new.bytes pool' starts
        (sweep (throughAll (Naming.redirect hierarchy)) (stages.map (naming pool)) names).2 := by
  induction trail generalizing names with
  | done =>
    cases shows
    exact ⟨hstages, rfl, .nil⟩
  | @round p n starts stages between stages' pool mid pool' code changed new hl rest pass later
      ih =>
    obtain ⟨first, walk⟩ := walk
    have whole := Trail.round hl rest pass later
    have haccess := whole.sameButFields.accessesField_eq walk List.mem_cons_self
    have walk' := (pass.walk_iff hl).mpr rest
    cases h : accessesField code.bytes p with
    | false =>
      rw [shows_cons_of_other h] at shows
      rw [shows_cons_of_other (haccess.trans h)]
      obtain ⟨rfl, rfl, rfl⟩ := pass.of_other h
      exact ih ⟨_, walk'⟩ hpool hstages shows
    | true =>
      obtain ⟨field, names, rfl, refers, hothers⟩ := (shows_cons_of_access h).mp shows
      obtain ⟨hsettled, field', hfield', hpass⟩ := pass.redirect_names hpool hstages refers
      have hbehind : ∀ q ∈ starts, ∀ j < 3, changed.bytes[q + j]? = code.bytes[q + j]? :=
        fun q hq j _ => pass.getElem?_eq hl (by have := rest.mem_bounds hq; omega)
      obtain ⟨hlast, hnamings, hshown⟩ := ih ⟨_, walk'⟩ (pass.grows.consistent hpool) hsettled
        (hothers.congr pass.grows hbehind)
      have hfront : ∀ j < 3, new.bytes[p + j]? = changed.bytes[p + j]? := fun j hj => by
        cases length_of_accessesField h hl
        exact later.getElem?_eq walk' (by omega)
      rw [sweep, hpass]
      exact ⟨hlast, hnamings, (shows_cons_of_access (haccess.trans h)).mpr
        ⟨field', _, rfl, (hfield'.congr hfront).grows later.grows, hshown⟩⟩

/-- Two bodies that show the same names refer to fields with the same names at every
access. -/
theorem exists_names_eq (shows : Shows code.bytes pool starts names)
    (shows' : Shows new.bytes pool' starts names)
    (hsame : ∀ p ∈ starts, accessesField new.bytes p = accessesField code.bytes p)
    (hp : p ∈ starts) (haccess : accessesField code.bytes p = true) :
    ∃ field field', RefersTo code.bytes pool p field ∧ RefersTo new.bytes pool' p field' ∧
      field.names = field'.names := by
  unfold Shows at shows shows'
  rw [List.filter_congr hsame] at shows'
  have hboth := forall₂_trans shows shows'.flip fun p f q h h' => (⟨f, h, h'⟩ : ∃ f,
    (∃ field, RefersTo code.bytes pool p field ∧ field.names = f) ∧
      ∃ field, RefersTo new.bytes pool' q field ∧ field.names = f)
  obtain ⟨f, ⟨field, refers, hf⟩, field', refers', hf'⟩ :=
    List.forall₂_same.mp hboth p (List.mem_filter.mpr ⟨hp, haccess⟩)
  exact ⟨field, field', refers, refers', hf.trans hf'.symm⟩

end Runs

end FieldRedirect

end JvmClass
