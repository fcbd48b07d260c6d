import JvmClass.Proofs.Transform.Agreement

/-!
# Redirections in turn

A chain of redirections takes every access of a class through all its stages before it
goes on to the next. The stages could as well be run over the class one after the other,
each in a chain of its own. Both ways store their entries in another order, so that the
operands differ; but if all accesses of the class refer to fields, the classes agree.
-/

namespace JvmClass

/-! ## Runs over methods -/

namespace FieldRedirect

open Bytecode

variable {hierarchy : TypeHierarchy} {stages stages' : Chain FieldRedirect}
  {pool pool' : ConstantPool} {m m' : Method} {names : List FieldNames}

/-- A chain takes the names that a method shows through its stages. -/
theorem redirect_names_of_applyToMethod {found : Bool} (hpool : pool.Consistent)
    (hstages : ∀ stage ∈ stages, stage.Settled pool) (shows : m.Shows pool names)
    (h : (Chain.applyToMethod hierarchy).runOn (stages, pool, m) =
      (.ok found, stages', pool', m')) :
    pool.Grows pool' ∧ m.SameButFields m' ∧ (∀ stage ∈ stages', stage.Settled pool') ∧
      (sweep (throughAll (Naming.redirect hierarchy)) (stages.map (naming pool)) names).1 =
        stages'.map (naming pool') ∧
      m'.Shows pool'
        (sweep (throughAll (Naming.redirect hierarchy)) (stages.map (naming pool)) names).2 := by
  rw [Chain.runOn_applyToMethod] at h
  cases hcode : m.code? with
  | none =>
    have hnames := shows
    unfold Method.Shows at hnames
    rw [hcode] at h hnames
    cases h
    subst hnames
    exact ⟨.refl, .refl, hstages, rfl, shows⟩
  | some code =>
    unfold Method.Shows at shows
    rw [hcode] at h shows
    obtain ⟨starts, hstarts, shows⟩ := shows
    simp only at h
    rcases hrun : (Chain.applyToCode hierarchy).runOn (stages, pool, code) with
      ⟨outcome, stages₁, pool₁, new⟩
    rw [hrun] at h
    cases outcome with
    | error e => cases h
    | ok u =>
      cases h
      obtain ⟨starts', hstarts', trail⟩ := applyToCode_eq_ok_iff.mp hrun
      cases hstarts.symm.trans hstarts'
      have hsettled : stages.map (forgetOther pool) = stages :=
        (List.map_congr_left fun stage hstage =>
          forgetOther_eq_self fun id i hcached => (hstages stage hstage id i hcached).1).trans
          (List.map_id stages)
      rw [hsettled] at trail
      have walk := starts_eq_ok_iff.mp hstarts
      obtain ⟨hlast, hnamings, hshown⟩ := trail.redirect_names ⟨0, walk⟩ hpool hstages shows
      refine ⟨trail.grows, .body hcode hstarts trail.sameButFields, hlast, hnamings, ?_⟩
      unfold Method.Shows
      rw [Method.code?_withCode new hcode]
      exact ⟨starts, starts_eq_ok_iff.mpr (trail.sameButFields.walk walk), hshown⟩

/-- A chain takes the names that methods show through its stages, one method after the
other. -/
theorem redirect_names_of_applyToMethods {done methods out : List Method}
    {rows : List (List FieldNames)} (hpool : pool.Consistent)
    (hstages : ∀ stage ∈ stages, stage.Settled pool)
    (shows : List.Forall₂ (fun m names => m.Shows pool names) methods rows)
    (h : Chain.applyToMethods hierarchy done methods stages pool =
      (.ok (), stages', pool', out)) :
    pool.Grows pool' ∧ ∃ methods', out = done.reverse ++ methods' ∧
      List.Forall₂ Method.SameButFields methods methods' ∧
      List.Forall₂ (fun m names => m.Shows pool' names) methods'
        (sweep (sweep (throughAll (Naming.redirect hierarchy)))
          (stages.map (naming pool)) rows).2 := by
  induction methods generalizing done stages pool rows with
  | nil =>
    cases shows
    cases h
    exact ⟨.refl, [], (List.append_nil _).symm, .nil, .nil⟩
  | cons m methods ih =>
    cases shows with
    | @cons _ names _ rows hm hothers =>
      unfold Chain.applyToMethods at h
      rcases hrun : (Chain.applyToMethod hierarchy).runOn (stages, pool, m) with
        ⟨outcome, stages₁, mid, m'⟩
      rw [hrun] at h
      cases outcome with
      | error e => cases h
      | ok found =>
        obtain ⟨hgrows, hsame, hsettled, hnamings, hshown⟩ :=
          redirect_names_of_applyToMethod hpool hstages hm hrun
        obtain ⟨hlater, methods', hout, hsames, hrest⟩ := ih (hgrows.consistent hpool) hsettled
          (hothers.imp fun _ _ shows => shows.grows hgrows) h
        refine ⟨hgrows.trans hlater, m' :: methods', ?_, .cons hsame hsames, ?_⟩
        · rw [hout, List.reverse_cons, List.append_assoc]
          rfl
        · rw [sweep]
          simp only [hnamings]
          exact .cons (hshown.grows hlater) hrest

/-- A chain that succeeds has walked over all bodies. -/
theorem exists_starts_of_applyToMethods {done methods out : List Method}
    (h : Chain.applyToMethods hierarchy done methods stages pool = (.ok (), stages', pool', out)) :
    ∀ m ∈ methods, ∀ code, m.code? = some code →
      ∃ starts, Bytecode.starts code.bytes = .ok starts := by
  induction methods generalizing done stages pool with
  | nil => exact fun m hm => absurd hm List.not_mem_nil
  | cons m methods ih =>
    unfold Chain.applyToMethods at h
    rcases hrun : (Chain.applyToMethod hierarchy).runOn (stages, pool, m) with
      ⟨outcome, stages₁, mid, m'⟩
    rw [hrun] at h
    cases outcome with
    | error e => cases h
    | ok found =>
      intro other hother code hcode
      rcases List.mem_cons.mp hother with rfl | hother
      · rw [Chain.runOn_applyToMethod, hcode] at hrun
        simp only at hrun
        rcases hbody : (Chain.applyToCode hierarchy).runOn (stages, pool, code) with
          ⟨outcome, stages₂, pool₂, new⟩
        rw [hbody] at hrun
        cases outcome with
        | error e => cases hrun
        | ok u =>
          obtain ⟨starts, hstarts, -⟩ := applyToCode_eq_ok_iff.mp hbody
          exact ⟨starts, hstarts⟩
      · exact ih h other hother code hcode

end FieldRedirect

/-! ## Runs over a class -/

/-- Run stages over a class one after the other, each in a chain of its own. -/
def Chain.applyInTurn {τ : Type} [Stage τ] (hierarchy : TypeHierarchy) :
    List τ → ClassFile → Except Error ClassFile
  | [], c => .ok c
  | stage :: stages, c =>
    match (applyToClass hierarchy).runOn ([stage], c) with
    | (.ok (), _, c) => applyInTurn hierarchy stages c
    | (.error e, _, _) => .error e

namespace FieldRedirect

open Bytecode

variable {hierarchy : TypeHierarchy} {c c' d : ClassFile} {rows : List (List FieldNames)}

/-- A stage that is fresh may be used with every pool. -/
theorem settled_of_fresh {stage : FieldRedirect} (h : stage.cached = none) (pool : ConstantPool) :
    stage.Settled pool := by
  intro id i hcached
  cases h.symm.trans hcached

/-- A chain with stages is run over a class by running it over the methods. -/
theorem applyToClass_eq_ok_iff {stages stages' : Chain FieldRedirect} (hstages : stages ≠ []) :
    (Chain.applyToClass hierarchy).runOn (stages, c) = (.ok (), stages', c') ↔
      Chain.applyToMethods hierarchy [] c.methods stages c.pool =
          (.ok (), stages', c'.pool, c'.methods) ∧
        c' = { c with pool := c'.pool, methods := c'.methods } := by
  have hempty : stages.isEmpty = false := by
    cases stages with
    | nil => exact absurd rfl hstages
    | cons => rfl
  unfold Chain.applyToClass Edit.runOn
  simp only [ExceptT.mk, ExceptT.run, hempty]
  rcases Chain.applyToMethods hierarchy [] c.methods stages c.pool with
    ⟨outcome, stages₁, pool', methods'⟩
  constructor
  · intro h
    cases h
    exact ⟨rfl, rfl⟩
  · rintro ⟨h, hrest⟩
    cases h
    rw [hrest]
    rfl

/-- A chain of fresh stages takes the names that a class shows through its stages. -/
theorem redirect_names_of_applyToClass {stages stages' : Chain FieldRedirect}
    (hstages : stages ≠ []) (hfresh : ∀ stage ∈ stages, stage.cached = none)
    (hpool : c.pool.Consistent) (shows : c.Shows rows)
    (h : (Chain.applyToClass hierarchy).runOn (stages, c) = (.ok (), stages', c')) :
    c.SameButFields c' ∧ c'.pool.Consistent ∧
      c'.Shows (throughAll (sweep (sweep (Naming.redirect hierarchy)))
        (stages.map fun stage => ⟨stage, none⟩) rows).2 := by
  obtain ⟨hrun, hrest⟩ := (applyToClass_eq_ok_iff hstages).mp h
  have hnamings : stages.map (naming c.pool) = stages.map fun stage => ⟨stage, none⟩ :=
    List.map_congr_left fun stage hstage => naming_of_fresh (hfresh stage hstage) c.pool
  obtain ⟨hgrows, methods', hmethods, hsames, hshown⟩ := redirect_names_of_applyToMethods hpool
    (fun stage hstage => settled_of_fresh (hfresh stage hstage) c.pool) shows hrun
  obtain rfl : c'.methods = methods' := hmethods
  rw [hnamings, sweep_sweep_throughAll] at hshown
  exact ⟨⟨hrest, hsames⟩, hgrows.consistent hpool, hshown⟩

/-- Fresh stages that are run in turn take the names that a class shows through all of
them. -/
theorem redirect_names_of_applyInTurn {stages : List FieldRedirect}
    (hfresh : ∀ stage ∈ stages, stage.cached = none) (hpool : c.pool.Consistent)
    (shows : c.Shows rows) (h : Chain.applyInTurn hierarchy stages c = .ok d) :
    c.SameButFields d ∧ d.Shows (throughAll (sweep (sweep (Naming.redirect hierarchy)))
      (stages.map fun stage => ⟨stage, none⟩) rows).2 := by
  induction stages generalizing c rows with
  | nil =>
    cases h
    exact ⟨.refl _, shows⟩
  | cons stage stages ih =>
    unfold Chain.applyInTurn at h
    rcases hrun : (Chain.applyToClass hierarchy).runOn ([stage], c) with ⟨outcome, stages₁, mid⟩
    rw [hrun] at h
    cases outcome with
    | error e => cases h
    | ok u =>
      have hfirst : ∀ s ∈ [stage], s.cached = none := fun s hs =>
        hfresh s (List.mem_singleton.mp hs ▸ List.mem_cons_self)
      obtain ⟨hsame, hmid, hshown⟩ :=
        redirect_names_of_applyToClass (List.cons_ne_nil _ _) hfirst hpool shows hrun
      obtain ⟨hothers, hlast⟩ := ih (fun s hs => hfresh s (List.mem_cons_of_mem _ hs)) hmid hshown h
      exact ⟨hsame.trans hothers, hlast⟩

/-! ## Fields that are stored in another order -/

section Fresh

variable {stage stage' : FieldRedirect} {pool pool' : ConstantPool} {descriptor : String}
  {i : UInt16}

/-- A fresh stage remembers the index that it is given. -/
theorem targetIndex_of_fresh (hfresh : stage.cached = none)
    (h : (stage.internTarget descriptor).runOn pool = (.ok i, pool')) :
    stage.targetIndex descriptor pool =
      (.ok i, { stage with cached := some (pool'.id, i) }, pool') := by
  unfold targetIndex
  rw [hfresh]
  simp only [h]

/-- If all names of the new field are stored, but no such field, the field is stored behind
the others. -/
theorem runOn_internTarget_of_not_mem {name text pair owner c : UInt16}
    (hpool : pool.Consistent)
    (hname : ConstantPool.IsFirst pool.slots (.text stage.newField) name.toNat)
    (htext : ConstantPool.IsFirst pool.slots (.text descriptor) text.toNat)
    (hpair : ConstantPool.IsFirst pool.slots (.nameAndType name text) pair.toNat)
    (howner : ConstantPool.IsFirst pool.slots (.text stage.newClass) owner.toNat)
    (hclass : ConstantPool.IsFirst pool.slots (.symbol .classInfo owner) c.toNat)
    (hnew : some (.member .field c pair) ∉ pool.slots) (hroom : pool.size < 65535) :
    (stage.internTarget descriptor).runOn pool =
      (.ok (UInt16.ofNat pool.size), pool.push (.member .field c pair)) := by
  unfold internTarget ConstantPool.internNameAndType ConstantPool.internClass
    ConstantPool.internSymbol ConstantPool.internText
  simp only [Edit.runOn_bind, ConstantPool.runOn_intern_of_isFirst hpool hname,
    ConstantPool.runOn_intern_of_isFirst hpool htext,
    ConstantPool.runOn_intern_of_isFirst hpool hpair,
    ConstantPool.runOn_intern_of_isFirst hpool howner,
    ConstantPool.runOn_intern_of_isFirst hpool hclass]
  exact ConstantPool.runOn_intern_of_not_mem hpool hnew hroom

end Fresh

/-- The bytes of a pool with the fields `A.a` and `A.b`, and with all names of `A.c` and
`A.d` but without these fields. -/
def raceBytes : List UInt8 :=
  [0, 16,
    1, 0, 1, 0x41, 7, 0, 1, 1, 0, 1, 0x61, 1, 0, 1, 0x62, 1, 0, 1, 0x63, 1, 0, 1, 0x64,
    1, 0, 1, 0x49, 12, 0, 3, 0, 7, 12, 0, 4, 0, 7, 12, 0, 5, 0, 7, 12, 0, 6, 0, 7,
    9, 0, 2, 0, 8, 9, 0, 2, 0, 9,
    1, 0, 4, 0x43, 0x6f, 0x64, 0x65, 1, 0, 3, 0x28, 0x29, 0x56]

/-- The pool of these bytes. -/
def racePool : ConstantPool :=
  ((ConstantPool.decode 0 raceBytes).toOption.map Prod.fst).getD (.empty 0)

/-- The pool with the field `A.d`. -/
def chainMidPool : ConstantPool := racePool.push (.member .field 2 11)

/-- The pool with the fields `A.d` and `A.c`, which were stored in this order. -/
def chainPool : ConstantPool := chainMidPool.push (.member .field 2 10)

/-- A copy of the first pool with the field `A.c`. -/
def turnMidPool : ConstantPool := (racePool.withId 1).push (.member .field 2 10)

/-- The copy with the fields `A.c` and `A.d`, which were stored in this order. -/
def turnPool : ConstantPool := turnMidPool.push (.member .field 2 11)

/-- The redirection of `A.a` to `A.c`. -/
def redirectA : FieldRedirect := .create "A" "a" false "A" "c"

/-- The redirection of `A.b` to `A.d`. -/
def redirectB : FieldRedirect := .create "A" "b" false "A" "d"

/-- A body that reads fields, one after the other. -/
def readingCode (operands : List UInt8) : Code :=
  { maxStack := 2
    maxLocals := 0
    bytes := (operands.flatMap fun i => [0xb2, 0, i]).toArray
    handlers := []
    attributes := [] }

/-- A method with a body. -/
def readingMethod (nameIndex : UInt16) (operands : List UInt8) : Method :=
  { flags := ⟨8⟩
    nameIndex
    descriptorIndex := 15
    attributes := some [⟨14, .code (readingCode operands)⟩] }

/-- A class with such methods. -/
def readingClass (pool : ConstantPool) (methods : List Method) : ClassFile :=
  { minorVersion := 0
    majorVersion := 52
    pool
    flags := ⟨0x21⟩
    thisClass := 2
    superClass := 0
    interfaces := []
    fields := []
    methods
    attributes := [] }

/-- A class with one method, which reads two fields. -/
def racingClass (pool : ConstantPool) (first second : UInt8) : ClassFile :=
  readingClass pool [readingMethod 3 [first, second]]

/-- The class with another method behind it, which has the index of no field at first. -/
def danglingClass (pool : ConstantPool) (first second : UInt8) : ClassFile :=
  readingClass pool [readingMethod 3 [first, second], readingMethod 4 [16]]

/-- The names of a new field of the class `A` are stored, but the field is not. -/
def Unstored (pool : ConstantPool) (stage : FieldRedirect) (name pair : UInt16) : Prop :=
  ConstantPool.IsFirst pool.slots (.text stage.newField) name.toNat ∧
    ConstantPool.IsFirst pool.slots (.text "I") (7 : UInt16).toNat ∧
    ConstantPool.IsFirst pool.slots (.nameAndType name 7) pair.toNat ∧
    ConstantPool.IsFirst pool.slots (.text stage.newClass) (1 : UInt16).toNat ∧
    ConstantPool.IsFirst pool.slots (.symbol .classInfo 1) (2 : UInt16).toNat ∧
    some (.member .field 2 pair) ∉ pool.slots ∧ pool.size < 65535

instance (pool : ConstantPool) (stage : FieldRedirect) (name pair : UInt16) :
    Decidable (Unstored pool stage name pair) := by
  unfold Unstored ConstantPool.IsFirst
  infer_instance

/-- A fresh stage stores such a field, and remembers where it is. -/
theorem targetIndex_of_unstored {pool : ConstantPool} {stage : FieldRedirect}
    {name pair i : UInt16} {id : Nat} (hpool : pool.Consistent) (hfresh : stage.cached = none)
    (h : Unstored pool stage name pair) (hid : pool.id = id) (hi : UInt16.ofNat pool.size = i) :
    stage.targetIndex "I" pool = (.ok i, { stage with cached := some (id, i) },
      pool.push (.member .field 2 pair)) := by
  subst hid hi
  obtain ⟨hname, htext, hpair, howner, hclass, hnew, hroom⟩ := h
  exact targetIndex_of_fresh hfresh
    (runOn_internTarget_of_not_mem hpool hname htext hpair howner hclass hnew hroom)

/-- The pool was read, so it is consistent. -/
theorem consistent_racePool : racePool.Consistent := by
  have hdecode : ConstantPool.decode 0 raceBytes = .ok (racePool, []) := rfl
  exact (ConstantPool.Reachable.decode hdecode).consistent

/-- A step that puts an index into an operand of a body. -/
theorem step_readingCode {stage stage' : FieldRedirect} {pool pool' : ConstantPool}
    {before after : List UInt8} {p : Nat} {field : MemberRef} {i : UInt16}
    (refers : RefersTo (readingCode before).bytes pool p field)
    (concerns : stage.concerns .unknown field = true)
    (target : stage.targetIndex field.descriptor pool = (.ok i, stage', pool'))
    (room : p + 1 + 2 ≤ (readingCode before).bytes.size)
    (hbytes : overwrite (readingCode before).bytes (p + 1) (Codec.bytesOfU16 i) =
      (readingCode after).bytes) :
    Step stage .unknown pool (readingCode before) p stage' pool' (readingCode after) := by
  have step := Step.redirected refers concerns target room
  rw [hbytes] at step
  exact step

/-- A run over a body with two instructions. -/
theorem applyToCode_of_passes {stages between stages' : Chain FieldRedirect}
    {pool mid pool' : ConstantPool} {code changed new : Code}
    (hstages : ∀ stage ∈ stages, stage.forgetOther pool = stage)
    (hstarts : Bytecode.starts code.bytes = .ok [0, 3])
    (first : Pass hierarchy 0 stages pool code between mid changed)
    (second : Pass hierarchy 3 between mid changed stages' pool' new) :
    (Chain.applyToCode hierarchy).runOn (stages, pool, code) = (.ok (), stages', pool', new) := by
  refine applyToCode_eq_ok_iff.mpr ⟨[0, 3], hstarts, ?_⟩
  rw [List.map_congr_left hstages, List.map_id']
  cases starts_eq_ok_iff.mp hstarts with
  | @step _ length _ _ hl rest =>
    obtain rfl : length = 3 := by have hnext := rest.first_eq; omega
    have later : Walk changed.bytes 3 [3] changed.bytes.size := (first.walk_iff hl).mpr rest
    cases later with
    | step hl' rest' => exact .round hl rest first (.round hl' rest' second (.done ..))

/-- The chain stores `A.d` first. -/
theorem applyToCode_chain : (Chain.applyToCode .unknown).runOn
      ([redirectA, redirectB], racePool, readingCode [13, 12]) =
    (.ok (), [{ redirectA with cached := some (0, 17) }, { redirectB with cached := some (0, 16) }],
      chainPool, readingCode [16, 17]) := by
  have hnew : Unstored racePool redirectB 6 11 := by decide +kernel
  have hd : redirectB.targetIndex "I" racePool = (.ok 16,
      { redirectB with cached := some (0, 16) }, chainMidPool) :=
    targetIndex_of_unstored consistent_racePool rfl hnew (by decide +kernel) (by decide +kernel)
  have hnew' : Unstored chainMidPool redirectA 5 10 := by decide +kernel
  have hc : redirectA.targetIndex "I" chainMidPool = (.ok 17,
      { redirectA with cached := some (0, 17) }, chainPool) :=
    targetIndex_of_unstored (consistent_racePool.push (by decide +kernel)) rfl hnew'
      (by decide +kernel) (by decide +kernel)
  have hb : RefersTo (readingCode [13, 12]).bytes racePool 0 ⟨.field, 2, 9, "A", "b", "I"⟩ := by
    decide +kernel
  have ha : RefersTo (readingCode [16, 12]).bytes chainMidPool 3 ⟨.field, 2, 8, "A", "a", "I"⟩ := by
    decide +kernel
  have hplaced : RefersTo (readingCode [16, 17]).bytes chainPool 3
      ⟨.field, 2, 10, "A", "c", "I"⟩ := by
    decide +kernel
  have first : Pass .unknown 0 [redirectA, redirectB] racePool (readingCode [13, 12])
      [redirectA, { redirectB with cached := some (0, 16) }] chainMidPool (readingCode [16, 12]) :=
    .step (.passed hb (by decide +kernel)) (.step (step_readingCode hb (by decide +kernel) hd
      (by decide +kernel) (by decide +kernel)) (.done ..))
  have second : Pass .unknown 3 [redirectA, { redirectB with cached := some (0, 16) }]
      chainMidPool (readingCode [16, 12])
      [{ redirectA with cached := some (0, 17) }, { redirectB with cached := some (0, 16) }]
      chainPool (readingCode [16, 17]) :=
    .step (step_readingCode ha (by decide +kernel) hc (by decide +kernel) (by decide +kernel))
      (.step (.passed hplaced (by decide +kernel)) (.done ..))
  exact applyToCode_of_passes (by decide +kernel) (by decide +kernel) first second

/-- On a copy, the first of the stages stores `A.c`. -/
theorem applyToCode_firstTurn : (Chain.applyToCode .unknown).runOn
      ([redirectA], racePool.withId 1, readingCode [13, 12]) =
    (.ok (), [{ redirectA with cached := some (1, 16) }], turnMidPool, readingCode [13, 16]) := by
  have hnew : Unstored (racePool.withId 1) redirectA 5 10 := by decide +kernel
  have hc : redirectA.targetIndex "I" (racePool.withId 1) = (.ok 16,
      { redirectA with cached := some (1, 16) }, turnMidPool) :=
    targetIndex_of_unstored (consistent_racePool.withId 1) rfl hnew (by decide +kernel)
      (by decide +kernel)
  have hb : RefersTo (readingCode [13, 12]).bytes (racePool.withId 1) 0
      ⟨.field, 2, 9, "A", "b", "I"⟩ := by
    decide +kernel
  have ha : RefersTo (readingCode [13, 12]).bytes (racePool.withId 1) 3
      ⟨.field, 2, 8, "A", "a", "I"⟩ := by
    decide +kernel
  have first : Pass .unknown 0 [redirectA] (racePool.withId 1) (readingCode [13, 12])
      [redirectA] (racePool.withId 1) (readingCode [13, 12]) :=
    .step (.passed hb (by decide +kernel)) (.done ..)
  have second : Pass .unknown 3 [redirectA] (racePool.withId 1) (readingCode [13, 12])
      [{ redirectA with cached := some (1, 16) }] turnMidPool (readingCode [13, 16]) :=
    .step (step_readingCode ha (by decide +kernel) hc (by decide +kernel) (by decide +kernel))
      (.done ..)
  exact applyToCode_of_passes (by decide +kernel) (by decide +kernel) first second

/-- The second one stores `A.d` then. -/
theorem applyToCode_secondTurn : (Chain.applyToCode .unknown).runOn
      ([redirectB], turnMidPool, readingCode [13, 16]) =
    (.ok (), [{ redirectB with cached := some (1, 17) }], turnPool, readingCode [17, 16]) := by
  have hnew : Unstored turnMidPool redirectB 6 11 := by decide +kernel
  have hd : redirectB.targetIndex "I" turnMidPool = (.ok 17,
      { redirectB with cached := some (1, 17) }, turnPool) :=
    targetIndex_of_unstored ((consistent_racePool.withId 1).push (by decide +kernel)) rfl hnew
      (by decide +kernel) (by decide +kernel)
  have hb : RefersTo (readingCode [13, 16]).bytes turnMidPool 0 ⟨.field, 2, 9, "A", "b", "I"⟩ := by
    decide +kernel
  have hplaced : RefersTo (readingCode [17, 16]).bytes turnPool 3
      ⟨.field, 2, 10, "A", "c", "I"⟩ := by
    decide +kernel
  have first : Pass .unknown 0 [redirectB] turnMidPool (readingCode [13, 16])
      [{ redirectB with cached := some (1, 17) }] turnPool (readingCode [17, 16]) :=
    .step (step_readingCode hb (by decide +kernel) hd (by decide +kernel) (by decide +kernel))
      (.done ..)
  have second : Pass .unknown 3 [{ redirectB with cached := some (1, 17) }] turnPool
      (readingCode [17, 16]) [{ redirectB with cached := some (1, 17) }] turnPool
      (readingCode [17, 16]) :=
    .step (.passed hplaced (by decide +kernel)) (.done ..)
  exact applyToCode_of_passes (by decide +kernel) (by decide +kernel) first second

/-- A run over a body with one access that no stage concerns. -/
theorem applyToCode_of_passed {stages : Chain FieldRedirect} {pool : ConstantPool} {code : Code}
    {field : MemberRef} (hstages : ∀ stage ∈ stages, stage.forgetOther pool = stage)
    (hstarts : Bytecode.starts code.bytes = .ok [0]) (refers : RefersTo code.bytes pool 0 field)
    (concerns : ∀ stage ∈ stages, stage.concerns hierarchy field = false) :
    (Chain.applyToCode hierarchy).runOn (stages, pool, code) = (.ok (), stages, pool, code) := by
  have pass : Pass hierarchy 0 stages pool code stages pool code := by
    clear hstages
    induction stages with
    | nil => exact .done ..
    | cons stage stages ih =>
      exact .step (.passed refers (concerns stage List.mem_cons_self))
        (ih fun s hs => concerns s (List.mem_cons_of_mem _ hs))
  refine applyToCode_eq_ok_iff.mpr ⟨[0], hstarts, ?_⟩
  rw [List.map_congr_left hstages, List.map_id']
  cases starts_eq_ok_iff.mp hstarts with
  | step hl rest => exact .round hl rest pass (.done ..)

/-- A run over a body is one over the first of the methods that are left. -/
theorem applyToMethods_cons_reading {stages stages' : Chain FieldRedirect}
    {pool pool' : ConstantPool} {before after : List UInt8} {nameIndex : UInt16}
    {done methods : List Method}
    (h : (Chain.applyToCode hierarchy).runOn (stages, pool, readingCode before) =
      (.ok (), stages', pool', readingCode after)) :
    Chain.applyToMethods hierarchy done (readingMethod nameIndex before :: methods) stages pool =
      Chain.applyToMethods hierarchy (readingMethod nameIndex after :: done) methods stages'
        pool' := by
  have hcode : (readingMethod nameIndex before).code? = some (readingCode before) := rfl
  have hrun : (Chain.applyToMethod hierarchy).runOn (stages, pool, readingMethod nameIndex before) =
      (.ok true, stages', pool', readingMethod nameIndex after) := by
    rw [Chain.runOn_applyToMethod, hcode]
    simp only [h]
    rfl
  rw [Chain.applyToMethods, hrun]

/-- A run over the body of the class. -/
theorem applyToClass_racingClass {stages stages' : Chain FieldRedirect} {pool pool' : ConstantPool}
    {first second first' second' : UInt8} (hstages : stages ≠ [])
    (h : (Chain.applyToCode hierarchy).runOn (stages, pool, readingCode [first, second]) =
      (.ok (), stages', pool', readingCode [first', second'])) :
    (Chain.applyToClass hierarchy).runOn (stages, racingClass pool first second) =
      (.ok (), stages', racingClass pool' first' second') :=
  (applyToClass_eq_ok_iff hstages).mpr ⟨applyToMethods_cons_reading h, rfl⟩

/-- A run over both bodies, if the second one stays as it is. -/
theorem applyToClass_danglingClass {stages stages' : Chain FieldRedirect}
    {pool pool' : ConstantPool} {first second first' second' : UInt8} {field : MemberRef}
    (hstages : stages ≠ [])
    (h : (Chain.applyToCode hierarchy).runOn (stages, pool, readingCode [first, second]) =
      (.ok (), stages', pool', readingCode [first', second']))
    (hused : ∀ stage ∈ stages', stage.forgetOther pool' = stage)
    (refers : RefersTo (readingCode [16]).bytes pool' 0 field)
    (concerns : ∀ stage ∈ stages', stage.concerns hierarchy field = false) :
    (Chain.applyToClass hierarchy).runOn (stages, danglingClass pool first second) =
      (.ok (), stages', danglingClass pool' first' second') := by
  have hlast := applyToCode_of_passed hused (by decide +kernel) refers concerns
  exact (applyToClass_eq_ok_iff hstages).mpr
    ⟨(applyToMethods_cons_reading h).trans (applyToMethods_cons_reading hlast), rfl⟩

/-- Two stages in turn. -/
theorem applyInTurn_pair {first second : FieldRedirect} {stages stages' : Chain FieldRedirect}
    {mid : ClassFile}
    (hfirst : (Chain.applyToClass hierarchy).runOn ([first], c) = (.ok (), stages, mid))
    (hsecond : (Chain.applyToClass hierarchy).runOn ([second], mid) = (.ok (), stages', d)) :
    Chain.applyInTurn hierarchy [first, second] c = .ok d := by
  rw [Chain.applyInTurn, hfirst]
  simp only
  rw [Chain.applyInTurn, hsecond]
  rfl

/-! ## A chain and its stages in turn -/

/-- **A chain of redirections does what they do in turn.** Let all accesses of a class refer
to fields. If a chain of fresh stages succeeds on the class, and the stages succeed on a copy
of it one after the other, each in a chain of its own, then the classes agree: the bodies have
the same bytes but for the operands of accesses, every one of these operands leads, in the
pool of its class, to a field of the same class, name and descriptor, and nothing else but the
pools differs. -/
theorem applyToClass_agreesWith_inTurn {stages stages' : List FieldRedirect} {id : Nat}
    (hpool : c.pool.Consistent) (hfields : c.ResolvesFields)
    (hfresh : ∀ stage ∈ stages, stage.cached = none)
    (hchain : (Chain.applyToClass hierarchy).runOn (stages, c) = (.ok (), stages', c'))
    (hturn : Chain.applyInTurn hierarchy stages (c.withPoolId id) = .ok d) :
    c'.AgreesWith d := by
  by_cases hstages : stages = []
  · subst hstages
    cases hchain
    cases hturn
    exact hfields.agreesWith_withPoolId id
  · have hbodies :=
      exists_starts_of_applyToMethods ((applyToClass_eq_ok_iff hstages).mp hchain).1
    obtain ⟨rows, shows⟩ := hfields.exists_shows hbodies
    have hsame : c.SameButFields (c.withPoolId id) := ⟨rfl, List.forall₂_same.mpr fun _ _ => .refl⟩
    obtain ⟨hfirst, -, hshown⟩ :=
      redirect_names_of_applyToClass hstages hfresh hpool shows hchain
    obtain ⟨hsecond, hshown'⟩ :=
      redirect_names_of_applyInTurn hfresh (hpool.withId id) (shows.withPoolId id) hturn
    exact (hfirst.symm.trans (hsame.trans hsecond)).agreesWith hshown hshown'

/-- Two fields change places in the pool when two redirections are run in turn. The operands
differ, and lead to the same names. -/
theorem applyToClass_agreesWith_inTurn_race :
    (racePool.Consistent ∧ (racingClass racePool 13 12).ResolvesFields ∧
      ∀ stage ∈ [redirectA, redirectB], stage.cached = none) ∧
    ∃ stages', (Chain.applyToClass .unknown).runOn
        ([redirectA, redirectB], racingClass racePool 13 12) =
      (.ok (), stages', racingClass chainPool 16 17) ∧
    Chain.applyInTurn .unknown [redirectA, redirectB] ((racingClass racePool 13 12).withPoolId 1) =
      .ok (racingClass turnPool 17 16) ∧
    (racingClass chainPool 16 17).AgreesWith (racingClass turnPool 17 16) := by
  have hfields : (racingClass racePool 13 12).ResolvesFields := by
    intro m hm code starts hcode hstarts p hp _
    cases List.mem_singleton.mp hm
    cases hcode
    have hplaces : Bytecode.starts (readingCode [13, 12]).bytes = .ok [0, 3] := by decide +kernel
    cases hplaces.symm.trans hstarts
    rcases List.mem_pair.mp hp with rfl | rfl
    · exact ⟨⟨.field, 2, 9, "A", "b", "I"⟩, by decide +kernel⟩
    · exact ⟨⟨.field, 2, 8, "A", "a", "I"⟩, by decide +kernel⟩
  have hfresh : ∀ stage ∈ [redirectA, redirectB], stage.cached = none := by decide +kernel
  have hchain := applyToClass_racingClass (List.cons_ne_nil _ _) applyToCode_chain
  have hfirst := applyToClass_racingClass (List.cons_ne_nil _ _) applyToCode_firstTurn
  have hsecond := applyToClass_racingClass (List.cons_ne_nil _ _) applyToCode_secondTurn
  have hturn : Chain.applyInTurn .unknown [redirectA, redirectB]
      ((racingClass racePool 13 12).withPoolId 1) = .ok (racingClass turnPool 17 16) :=
    applyInTurn_pair hfirst hsecond
  exact ⟨⟨consistent_racePool, hfields, hfresh⟩, _, hchain, hturn,
    applyToClass_agreesWith_inTurn consistent_racePool hfields hfresh hchain hturn⟩

/-- An operand that leads nowhere before the runs leads to the field that is stored first. This
is another field when the redirections are run in turn. -/
theorem not_agreesWith_inTurn_of_dangling :
    (racePool.Consistent ∧ ∀ stage ∈ [redirectA, redirectB], stage.cached = none) ∧
    ∃ stages', (Chain.applyToClass .unknown).runOn
        ([redirectA, redirectB], danglingClass racePool 13 12) =
      (.ok (), stages', danglingClass chainPool 16 17) ∧
    Chain.applyInTurn .unknown [redirectA, redirectB]
        ((danglingClass racePool 13 12).withPoolId 1) = .ok (danglingClass turnPool 17 16) ∧
    ¬ (danglingClass chainPool 16 17).AgreesWith (danglingClass turnPool 17 16) := by
  have hd : RefersTo (readingCode [16]).bytes chainPool 0 ⟨.field, 2, 11, "A", "d", "I"⟩ := by
    decide +kernel
  have hmid : RefersTo (readingCode [16]).bytes turnMidPool 0 ⟨.field, 2, 10, "A", "c", "I"⟩ := by
    decide +kernel
  have hc : RefersTo (readingCode [16]).bytes turnPool 0 ⟨.field, 2, 10, "A", "c", "I"⟩ := by
    decide +kernel
  have hchain := applyToClass_danglingClass (List.cons_ne_nil _ _) applyToCode_chain
    (by decide +kernel) hd (by decide +kernel)
  have hfirst := applyToClass_danglingClass (List.cons_ne_nil _ _) applyToCode_firstTurn
    (by decide +kernel) hmid (by decide +kernel)
  have hsecond := applyToClass_danglingClass (List.cons_ne_nil _ _) applyToCode_secondTurn
    (by decide +kernel) hc (by decide +kernel)
  refine ⟨⟨consistent_racePool, by decide +kernel⟩, _, hchain, applyInTurn_pair hfirst hsecond,
    fun agrees => ?_⟩
  have hlast := (List.forall₂_cons.mp (List.forall₂_cons.mp agrees.names).2).1
  have hplace : Bytecode.starts (readingCode [16]).bytes = .ok [0] := by decide +kernel
  obtain ⟨field, field', refers, refers', hnames⟩ :=
    hlast _ _ [0] rfl rfl hplace 0 (List.mem_singleton.mpr rfl) (by decide +kernel)
  cases refers.unique hd
  cases refers'.unique hc
  exact absurd hnames (by decide +kernel)

end FieldRedirect

end JvmClass
