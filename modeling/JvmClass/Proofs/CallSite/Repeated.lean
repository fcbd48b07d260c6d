import JvmClass.Proofs.CallSite.Alignment
import JvmClass.Proofs.CallSite.Prologue

/-!
# Repeated replacements

A call that was opened can be replaced, and nothing keeps it from being replaced once
more. A replacement that fails leaves the call where it is. One that succeeds puts a
prologue in its place, which never begins like a dynamic call, and from then on every
further replacement that succeeds is done to other code than a call.
-/

namespace JvmClass

/-! ## Code that is no call -/

/-- Bytes that begin with another opcode than dynamic calls do. -/
def BeginsOtherwise (bytes : List UInt8) : Prop :=
  ∃ op rest, bytes = op :: rest ∧ op ≠ Opcode.invokeDynamic

/-- What follows does not matter. -/
theorem BeginsOtherwise.append {bytes : List UInt8} (h : BeginsOtherwise bytes)
    (more : List UInt8) : BeginsOtherwise (bytes ++ more) := by
  obtain ⟨op, rest, rfl, hop⟩ := h
  exact ⟨op, rest ++ more, rfl, hop⟩

/-- Moving a value from or to a slot is no dynamic call. -/
theorem beginsOtherwise_emitSlot {short normal : UInt8}
    (hshort : ∀ k < 4, short + UInt8.ofNat k ≠ Opcode.invokeDynamic)
    (hnormal : normal ≠ Opcode.invokeDynamic) (slot : UInt16) :
    BeginsOtherwise (emitSlot short normal slot) := by
  unfold emitSlot
  split
  · next hslot => exact ⟨_, _, rfl, hshort slot.toNat (UInt16.lt_iff_toNat_lt.mp hslot)⟩
  · split
    · exact ⟨_, _, rfl, hnormal⟩
    · exact ⟨_, _, rfl, by decide⟩

/-- A store is no dynamic call. -/
theorem Family.beginsOtherwise_store (family : Family) (slot : UInt16) :
    BeginsOtherwise (family.store slot) := by
  cases family <;> exact beginsOtherwise_emitSlot (by decide) (by decide) slot

namespace ReplacementSlots

variable (slots : ReplacementSlots) (parameters : List Descriptor)

/-- The instructions of a prologue are no dynamic calls. -/
theorem beginsOtherwise_of_mem_prologueRow {bytes : List UInt8}
    (h : bytes ∈ slots.prologueRow parameters) : BeginsOtherwise bytes := by
  rcases List.mem_append.mp h with h | h
  · obtain ⟨⟨d, slot⟩, -, rfl⟩ := List.mem_map.mp h
    exact d.family.beginsOtherwise_store _
  · rcases List.mem_pair.mp h with rfl | rfl
    · exact ⟨_, _, rfl, by decide⟩
    · exact Family.beginsOtherwise_store _ _

/-- A prologue is never empty, and does not begin like a dynamic call. -/
theorem beginsOtherwise_prologue : BeginsOtherwise (slots.prologue parameters) := by
  rw [← slots.flatten_prologueRow parameters]
  cases hrow : slots.prologueRow parameters with
  | nil =>
    have hlast := (List.append_eq_nil_iff.mp hrow).2
    cases hlast
  | cons first rest =>
    have hfirst := slots.beginsOtherwise_of_mem_prologueRow parameters
      (hrow ▸ List.mem_cons_self : first ∈ _)
    exact hfirst.append rest.flatten

end ReplacementSlots

namespace CallSite

/-! ## Calls that stand -/

/-- Whether a call stands in a class: the five bytes at its position are a dynamic call
of its index. -/
def StandsIn (call : CallSite) (c : ClassFile) : Prop :=
  ((c.codeAt? call.method).bind fun code => Bytecode.dynamicCallAt? code.bytes call.position) =
    some call.callSiteIndex

instance (call : CallSite) (c : ClassFile) : Decidable (call.StandsIn c) :=
  inferInstanceAs (Decidable (_ = _))

section Steps

variable {σ : Type} {compiler : StatementCompiler σ} {statement : String} {state state' : σ}
  {call call' : CallSite} {c c' : ClassFile} {method position : Nat}

/-- A call that is opened stands. -/
theorem standsIn_of_ofInstruction (h : ofInstruction c method position = .ok call) :
    call.StandsIn c := by
  obtain ⟨rfl, rfl, code, hcode, -⟩ := ofInstruction_eq_ok h
  unfold StandsIn
  rw [hcode]
  exact (index_and_stop_of_ofInstruction h hcode).1

/-- A call that is replaced no longer stands, whether it stood before or not. -/
theorem not_standsIn_of_replace
    (h : (replace compiler statement).runOn (state, call, c) = (.ok (), state', call', c')) :
    ¬ call'.StandsIn c' := by
  obtain ⟨r, performed, rfl⟩ := exists_performed h
  obtain ⟨spliced, moved, hspliced, -, -, hnew, -⟩ := replacedCode_eq_ok performed.new
  have hcode : c'.codeAt? call.method = some r.new := by
    rw [show c' = _ from performed.changed]
    exact ClassFile.codeAt?_withCodeAt r.new performed.old
  -- the new code begins with the prologue, whatever the statement is
  obtain ⟨op, rest, hbody, hop⟩ :=
    ((r.slots.beginsOtherwise_prologue r.parameters).append r.compiled.code).append
      (r.slots.epilogue r.result)
  have hfirst : r.new.bytes[call.position]? = some op := by
    have hbytes := hasBytes_of_splice hspliced 0
    rw [hbody] at hbytes
    rw [hnew]
    exact hbytes (Nat.succ_pos _)
  unfold StandsIn Bytecode.dynamicCallAt?
  rw [hcode, Option.bind_some, hfirst, if_neg fun h => hop (Option.some.inj h.2)]
  exact nofun

end Steps

/-! ## Attempts -/

/-- An attempt to replace a call. -/
structure Attempt where
  /-- The call before it. -/
  call : CallSite
  /-- The class before it. -/
  within : ClassFile
  /-- Whether it has succeeded, or how it has failed. -/
  outcome : Except Error Unit

/-- Whether an attempt has succeeded. -/
def Attempt.succeeded (attempt : Attempt) : Bool := attempt.outcome.isOk

/-- A call and its class have come from one state to another by attempts to replace the
call, one after the other, each by any statement with any compiler. -/
inductive Attempts : CallSite × ClassFile → List Attempt → CallSite × ClassFile → Prop
  /-- There are no more attempts. -/
  | stop (now : CallSite × ClassFile) : Attempts now [] now
  /-- There is a first attempt, and others behind it. -/
  | step {σ : Type} {compiler : StatementCompiler σ} {statement : String} {state state' : σ}
      {call call' : CallSite} {c c' : ClassFile} {outcome : Except Error Unit}
      {later : List Attempt} {last : CallSite × ClassFile}
      (hrun : (replace compiler statement).runOn (state, call, c) = (outcome, state', call', c'))
      (rest : Attempts (call', c') later last) :
      Attempts (call, c) (⟨call, c, outcome⟩ :: later) last

namespace Attempts

variable {now last : CallSite × ClassFile} {attempts : List Attempt}

/-- A call that does not stand does not stand at any attempt. -/
theorem not_standsIn (h : Attempts now attempts last) (hnow : ¬ now.1.StandsIn now.2) :
    ∀ attempt ∈ attempts, ¬ attempt.call.StandsIn attempt.within := by
  induction h with
  | stop => exact List.forall_mem_nil _
  | @step _ _ _ _ _ call call' c c' outcome _ _ hrun _ ih =>
    have hnext : ¬ call'.StandsIn c' := by
      cases outcome with
      | error e =>
        obtain ⟨rfl, rfl⟩ := eq_of_replace_eq_error hrun
        exact hnow
      | ok => exact not_standsIn_of_replace hrun
    exact List.forall_mem_cons.mpr ⟨hnow, ih hnext⟩

/-- Attempts on a call that does not stand keep to calls only if none of them
succeeds. -/
theorem on_calls_iff_of_not_standsIn (h : Attempts now attempts last)
    (hnow : ¬ now.1.StandsIn now.2) :
    (∀ attempt ∈ attempts, attempt.succeeded → attempt.call.StandsIn attempt.within) ↔
      attempts.countP Attempt.succeeded = 0 := by
  have hnone := h.not_standsIn hnow
  rw [List.countP_eq_zero]
  exact ⟨fun hall attempt hattempt hsucceeded =>
      hnone attempt hattempt (hall attempt hattempt hsucceeded),
    fun hfail attempt hattempt hsucceeded => absurd hsucceeded (hfail attempt hattempt)⟩

/-- Attempts on a call that stands keep to calls if no more than one succeeds. -/
theorem on_calls_iff_of_standsIn (h : Attempts now attempts last)
    (hnow : now.1.StandsIn now.2) :
    (∀ attempt ∈ attempts, attempt.succeeded → attempt.call.StandsIn attempt.within) ↔
      attempts.countP Attempt.succeeded ≤ 1 := by
  induction h with
  | stop => exact iff_of_true (List.forall_mem_nil _) (Nat.zero_le 1)
  | @step _ _ _ _ _ call call' c c' outcome later _ hrun rest ih =>
    rw [List.forall_mem_cons]
    cases outcome with
    | error e =>
      obtain ⟨rfl, rfl⟩ := eq_of_replace_eq_error hrun
      rw [List.countP_cons_of_neg Bool.false_ne_true, ← ih hnow]
      exact and_iff_right nofun
    | ok =>
      -- this attempt was done to the call, so none of the later ones may succeed
      have hrest := rest.on_calls_iff_of_not_standsIn (not_standsIn_of_replace hrun)
      rw [List.countP_cons_of_pos rfl, hrest]
      exact (and_iff_right fun _ => hnow).trans (by omega)

end Attempts

/-- All successful attempts to replace a call that was opened are done to a call of its
index exactly if no more than one of them succeeds. -/
theorem attempts_on_calls_iff {c : ClassFile} {method position : Nat} {call : CallSite}
    {attempts : List Attempt} {last : CallSite × ClassFile}
    (hcall : ofInstruction c method position = .ok call) (h : Attempts (call, c) attempts last) :
    (∀ attempt ∈ attempts, attempt.succeeded → attempt.call.StandsIn attempt.within) ↔
      attempts.countP Attempt.succeeded ≤ 1 :=
  h.on_calls_iff_of_standsIn (standsIn_of_ofInstruction hcall)

/-- A call is replaced at the second attempt, after one whose text does not name the
result. -/
theorem attempts_on_calls_iff_retry :
    ∃ last, Attempts (retryCall, retryClass)
        [⟨retryCall, retryClass,
            .error (.cannotCompile (.compile "the resulting value is not stored in $_"))⟩,
          ⟨retryCall, retryClass, .ok ()⟩] last ∧
      ofInstruction retryClass 0 1 = .ok retryCall ∧ retryCall.StandsIn retryClass := by
  have hcall : ofInstruction retryClass 0 1 = .ok retryCall := by decide +kernel
  have hfailed : ((replace (constantCompiler firstArgument) "$1;").runOn
      ((), retryCall, retryClass)).1 =
        .error (.cannotCompile (.compile "the resulting value is not stored in $_")) := by
    decide +kernel
  obtain ⟨hsame, hclass⟩ := eq_of_replace_eq_error (Edit.runOn_eq_of_fst _ hfailed)
  have hfirst := Prod.ext hfailed (Prod.ext rfl (Prod.ext hsame hclass))
  have hreplaced : ((replace (constantCompiler firstArgument) "$_ = $1;").runOn
      ((), retryCall, retryClass)).1 = .ok () := by decide +kernel
  have hsecond := Edit.runOn_eq_of_fst _ hreplaced
  have hattempts := Attempts.step hfirst (.step hsecond (.stop _))
  have hcalls := (attempts_on_calls_iff hcall hattempts).mpr (Nat.le_refl 1)
  exact ⟨_, hattempts, hcall, hcalls _ (List.mem_cons_of_mem _ List.mem_cons_self) rfl⟩

/-- A statement that makes a number the result, twice as long as it has to be. -/
def storedTwice : CompiledStatement :=
  { code := [0x00, 0x10, 0x3e, 0x3e], handlers := [], maxStack := 1, maxLocals := 4 }

/-- A call is replaced twice. The second replacement takes the first five bytes of the code
that the first one has put there, and leaves the rest behind: it starts with what was the
operand of a push. -/
theorem replaced_twice :
    ofInstruction retryClass 0 1 = .ok retryCall ∧
      ∃ call' c' last, Attempts (retryCall, retryClass)
          [⟨retryCall, retryClass, .ok ()⟩, ⟨call', c', .ok ()⟩] last ∧
        ¬ call'.StandsIn c' ∧
        ((c'.codeAt? 0).map fun code => code.bytes.toList.take 10) =
          some [0x1a, 0x3d, 1, 0x4c, 0, 0x10, 0x3e, 0x3e, 0x1d, 0] ∧
        ((last.2.codeAt? 0).map fun code => code.bytes.toList.take 18) =
          some ([0x1a, 0x36, 5, 1, 0x3a, 4, 0, 0x10, 0x3e, 0x3e, 0x15, 6, 0, 0] ++
            [0x3e, 0x3e, 0x1d, 0]) := by
  have hcall : ofInstruction retryClass 0 1 = .ok retryCall := by decide +kernel
  have hreplaced : ((replace (constantCompiler storedTwice) "$_").runOn
      ((), retryCall, retryClass)).1 = .ok () := by decide +kernel
  have hfirst := Edit.runOn_eq_of_fst _ hreplaced
  have hagain : ((replace (constantCompiler storedTwice) "$_").runOn
      ((replace (constantCompiler storedTwice) "$_").runOn
        ((), retryCall, retryClass)).2).1 = .ok () := by decide +kernel
  have hsecond := Edit.runOn_eq_of_fst _ hagain
  refine ⟨hcall, _, _, _, .step hfirst (.step hsecond (.stop _)),
    not_standsIn_of_replace hfirst, ?_, ?_⟩
  · decide +kernel
  · decide +kernel

end CallSite

end JvmClass
