import JvmClass.Proofs.CallSite.Replacement
import JvmClass.Proofs.Code.GapTables

/-!
# Replaced calls

What a replacement makes of a body, part by part. The code stands in the place
of the call, all other instructions are relocated around it, the handlers of
the statement come first, and a handler that covered the call covers all that
stands in its place.
-/

namespace JvmClass

variable {s : Shift} {size position : Nat} {starts : List Nat}

/-! ## Handlers -/

namespace Handler

/-- An entry for the same code at a distance. -/
structure MovedBy (distance : Nat) (old new : Handler) : Prop where
  /-- The first covered position has moved. -/
  start : new.start.toNat = old.start.toNat + distance
  /-- The end has moved. -/
  stop : new.stop.toNat = old.stop.toNat + distance
  /-- The target has moved. -/
  target : new.target.toNat = old.target.toNat + distance
  /-- The same class is caught. -/
  catchType : new.catchType = old.catchType

/-- An entry stays with its instructions and with a call that was replaced: it
covers all of what has taken the place of the call, or nothing of it. -/
structure FollowsCall (s : Shift) (old new : Handler) : Prop extends Follows s old new where
  /-- All of it is covered exactly if the call was covered, else none of it. -/
  replaced : ∀ i, s.position ≤ i → i < s.position + 5 + s.gap →
    (new.Covers i ↔ old.Covers s.position)

/-- A position that can be moved is found at the distance. -/
theorem toNat_of_movedPosition {distance : Nat} {old new : UInt16}
    (h : movedPosition distance old = .ok new) : new.toNat = old.toNat + distance := by
  unfold movedPosition at h
  split at h
  · cases h
    rw [UInt16.toNat_ofNat']
    omega
  · cases h

/-- Entries that can be moved are found at the distance, in the same order. -/
theorem forall₂_of_mapM_move {distance : Nat} {handlers moved : List Handler}
    (h : handlers.mapM (move distance) = .ok moved) :
    List.Forall₂ (MovedBy distance) handlers moved := by
  induction handlers generalizing moved with
  | nil =>
    cases h
    exact .nil
  | cons handler handlers ih =>
    rw [List.mapM_cons] at h
    obtain ⟨first, hfirst, h⟩ := bind_eq_ok_iff.mp h
    obtain ⟨others, hothers, h⟩ := bind_eq_ok_iff.mp h
    cases h
    refine .cons ?_ (ih hothers)
    unfold move at hfirst
    obtain ⟨start, hstart, hfirst⟩ := bind_eq_ok_iff.mp hfirst
    obtain ⟨stop, hstop, hfirst⟩ := bind_eq_ok_iff.mp hfirst
    obtain ⟨target, htarget, hfirst⟩ := bind_eq_ok_iff.mp hfirst
    cases hfirst
    exact ⟨toNat_of_movedPosition hstart, toNat_of_movedPosition hstop,
      toNat_of_movedPosition htarget, rfl⟩

/-- An entry that does not begin or end within a call stays with what has taken
the place of the call. -/
theorem followsCall_shift {length : Nat} {h : Handler} (hs : s = CallSite.shift position length)
    (hwithin : ∀ p ∈ h.positions, p ≤ size ∧ (p ≤ position ∨ position + 5 ≤ p))
    (hroom : s.gap = 0 ∨ size + s.gap ≤ 65535) : FollowsCall s h (h.shift s) := by
  have hstart := hwithin h.start.toNat (by simp [positions])
  have hstop := hwithin h.stop.toNat (by simp [positions])
  have hposition : s.position = position := by rw [hs]; rfl
  have hplace : ∀ t : Nat, s.target t = if position < t then t + s.gap else t := by
    intro t
    rw [hs]
    exact Shift.target_eq _ t
  refine ⟨follows_shift (fun p hp => (hwithin p hp).1) hroom, fun i hi hi' => ?_⟩
  rw [hposition] at hi hi' ⊢
  unfold Covers
  show (s.target16 h.start).toNat ≤ i ∧ i < (s.target16 h.stop).toNat ↔ _
  rw [s.toNat_target16 hstart.1 hroom, s.toNat_target16 hstop.1 hroom, hplace, hplace]
  split <;> split <;> omega

end Handler

/-! ## Bytes -/

/-- Bytes that are placed can be cut out. -/
theorem Bytecode.HasBytes.take_drop {code : Bytecode} {bytes : List UInt8}
    (h : code.HasBytes position bytes) :
    (code.toList.drop position).take bytes.length = bytes := by
  refine List.ext_getElem? fun i => ?_
  rw [List.getElem?_take]
  split
  · next hi =>
    rw [List.getElem?_drop, Array.getElem?_toList]
    exact h i hi
  · next hi => exact (List.getElem?_eq_none (Nat.le_of_not_lt hi)).symm

/-- A body with code in the place of a call consists of what was before the
call, the code, instructions that do nothing, and what was behind the call. -/
theorem Code.Spliced.exists_append {old new : Code} {body : List UInt8}
    (spliced : old.Spliced position body starts new) (hcall : position + 5 ≤ old.bytes.size) :
    ∃ before behind : List UInt8, before.length = position ∧
      behind.length = old.bytes.size - (position + 5) ∧
      new.bytes.toList = before ++ (body ++ List.replicate
        (5 + (CallSite.shift position body.length).gap - body.length) Opcode.nop) ++ behind := by
  have hgap := CallSite.length_le_gap position body.length
  have hsize := spliced.size
  have hplaced := Bytecode.hasBytes_append.mpr ⟨spliced.placed, spliced.padding⟩
  have hlength : (body ++ List.replicate (5 + (CallSite.shift position body.length).gap -
      body.length) Opcode.nop).length = 5 + (CallSite.shift position body.length).gap := by
    rw [List.length_append, List.length_replicate]
    omega
  have hmiddle := hplaced.take_drop
  refine ⟨new.bytes.toList.take position, (new.bytes.toList.drop position).drop
    (5 + (CallSite.shift position body.length).gap), ?_, ?_, ?_⟩
  · rw [List.length_take, Array.length_toList]
    omega
  · rw [List.length_drop, List.length_drop, Array.length_toList]
    omega
  · rw [← hmiddle, hlength, List.append_assoc, List.take_append_drop, List.take_append_drop]

namespace CallSite

/-! ## The replaced body -/

namespace Replacement

/-- What a body is like after the call at a position was replaced. -/
structure Exact (r : Replacement) (position : Nat) (starts : List Nat) : Prop where
  /-- The code stands in the place of the call, and what is left of it does
  nothing. -/
  bytes : ∃ before behind : List UInt8, before.length = position ∧
    behind.length = r.old.bytes.size - (position + 5) ∧
    r.new.bytes.toList = before ++ (r.body ++
      List.replicate (5 + (shift position r.body.length).gap - r.body.length) Opcode.nop) ++ behind
  /-- All other instructions are relocated. -/
  others : ∀ p ∈ starts, p ≠ position →
    Bytecode.Relocated (shift position r.body.length) r.old.bytes r.new.bytes p
  /-- The handlers of the statement come first, moved to where it stands. The
  others stay with their instructions, and with all of the code in the place
  of the call. -/
  handlers : ∃ moved kept, r.new.handlers = moved ++ kept ∧
    List.Forall₂ (Handler.MovedBy (position + r.prologue.length)) r.compiled.handlers moved ∧
    List.Forall₂ (Handler.FollowsCall (shift position r.body.length)) r.old.handlers kept
  /-- There are slots for the old code, for the statement, and for the arguments
  and the result of the call. -/
  maxLocals : r.new.maxLocals.toNat =
    max (max r.old.maxLocals.toNat r.compiled.maxLocals.toNat) r.slots.stop
  /-- The statement has an operand stack on top of the one before. -/
  maxStack : r.new.maxStack.toNat = r.old.maxStack.toNat + max r.compiled.maxStack.toNat 1
  /-- The attributes are shifted if a gap was needed. -/
  attributes : r.new.attributes = if r.body.length ≤ 5 then r.old.attributes
    else r.old.attributes.map (Attribute.shift (shift position r.body.length))

end Replacement

variable {σ : Type} {compiler : StatementCompiler σ} {statement : String} {state state' : σ}
  {call call' : CallSite} {c c' : ClassFile} {method : Nat} {code : Code}

/-- What a replacement that succeeds has done to the body. -/
theorem Replacement.Performed.exact {r : Replacement} {before after : σ × ClassFile}
    (performed : r.Performed compiler statement call before after)
    (walk : Bytecode.Walk r.old.bytes 0 starts r.old.bytes.size) (hmem : call.position ∈ starts)
    (hbyte : r.old.bytes[call.position]? = some Opcode.invokeDynamic)
    (hhandlers : ∀ h ∈ r.old.handlers, ∀ p ∈ h.positions, p ∈ starts ∨ p = r.old.bytes.size) :
    r.Exact call.position starts := by
  obtain ⟨hfive, hsize⟩ := Code.instructionLength_of_call walk hmem hbyte
  obtain ⟨spliced, moved, hparts, hmoved, hstack, hnew⟩ :=
    performed.exists_spliced walk hmem hbyte
  have hlimits := hparts.limits
  rw [Prod.mk.injEq] at hlimits
  have hroom := hparts.room
  -- no position of a handler lies within the call
  have hwithin : ∀ h ∈ r.old.handlers, ∀ p ∈ h.positions, p ≤ r.old.bytes.size ∧
      (p ≤ call.position ∨ call.position + 5 ≤ p) := by
    intro h hh p hp
    have hboundary := hhandlers h hh p hp
    refine ⟨?_, ?_⟩
    · rcases hboundary with hboundary | hboundary
      · exact Nat.le_of_lt (walk.mem_bounds hboundary).2
      · exact Nat.le_of_eq hboundary
    · rcases Nat.lt_or_ge call.position p with hlt | hge
      · exact .inr (walk.add_length_le hmem hfive hboundary hlt)
      · exact .inl hge
  constructor
  · rw [hnew]
    exact hparts.exists_append hsize
  · rw [hnew]
    exact hparts.others
  · refine ⟨moved, r.old.handlers.map (Handler.shift (shift call.position r.body.length)), ?_,
      Handler.forall₂_of_mapM_move hmoved, ?_⟩
    · rw [hnew]
      exact congrArg (moved ++ ·) hparts.handlers
    · exact List.forall₂_map_right_iff.mpr (List.forall₂_same.mpr fun h hh =>
        Handler.followsCall_shift rfl (hwithin h hh) hroom)
  · have hslots := performed.slots
    rw [hnew]
    show (max (max spliced.maxLocals _) _).toNat = _
    rw [hlimits.2, toNat_max, toNat_max, UInt16.toNat_ofNat', Nat.mod_eq_of_lt (by omega)]
  · rw [hnew]
    show (spliced.maxStack + r.stack).toNat = _
    rw [UInt16.toNat_add, Nat.mod_eq_of_lt (by omega), hlimits.1]
    exact congrArg (r.old.maxStack.toNat + ·) (toNat_max ..)
  · rw [hnew]
    exact hparts.attributes

/-- A replacement that succeeds puts the code in the place of the call. -/
theorem replace_exact (hcall : ofInstruction c method position = .ok call)
    (hcode : c.codeAt? method = some code) (hstarts : Bytecode.starts code.bytes = .ok starts)
    (hmem : position ∈ starts)
    (hhandlers : ∀ h ∈ code.handlers, ∀ p ∈ h.positions, p ∈ starts ∨ p = code.bytes.size)
    (h : (replace compiler statement).runOn (state, call, c) = (.ok (), state', call', c')) :
    ∃ r : Replacement, r.old = code ∧ r.Performed compiler statement call (state, c) (state', c') ∧
      r.Exact position starts ∧ c'.codeAt? method = some r.new ∧
      call' = { call with stop := position + max r.body.length 5 } := by
  obtain ⟨rfl, hbyte, r, rfl, performed, hnew, hstop⟩ := exists_replacement hcall hcode h
  have walk := Bytecode.starts_eq_ok_iff.mp hstarts
  exact ⟨r, rfl, performed, performed.exact walk hmem hbyte hhandlers, hnew, hstop⟩

/-- A body that returns the result of a call with its argument, and starts again
if the call fails. -/
def retryCode : Code where
  maxStack := 1
  maxLocals := 1
  bytes := #[0x1a, 0xba, 0, 6, 0, 0, 0xac, 0x57, 0xa7, 0xff, 0xf8]
  handlers := [{ start := 0, stop := 6, target := 7, catchType := 0 }]
  attributes := []

/-- A class with a method that has this body. -/
def retryClass : ClassFile where
  minorVersion := 0
  majorVersion := 52
  pool :=
    { id := 0
      slots := #[none, some (.text "A"), some (.symbol .classInfo 1), some (.text "f"),
        some (.text "(I)I"), some (.nameAndType 3 4), some (.dynamic .callSite 0 5),
        some (.text "Code")]
      index := {}
      thisClass := 2 }
  flags := .ofNewClass
  thisClass := 2
  superClass := 0
  interfaces := []
  fields := []
  methods :=
    [{ flags := .none
       nameIndex := 3
       descriptorIndex := 4
       attributes := some [{ nameIndex := 7, body := .code retryCode }] }]
  attributes := []

/-- The call in this body. -/
def retryCall : CallSite :=
  { method := 0, position := 1, stop := 6, callSiteIndex := 6, bootstrapIndex := 0 }

/-- A compiler that gives the same statement for every text. -/
def constantCompiler (compiled : CompiledStatement) : StatementCompiler Unit where
  recordParameters _ _ _ _ := pure ()
  recordResult _ _ := pure ()
  recordProceed _ := pure ()
  recordLocals _ _ _ := pure ()
  compile _ := pure compiled

/-- A statement that makes the first argument the result, with a handler. -/
def firstArgument : CompiledStatement :=
  { code := [0x1c, 0x3e], handlers := [⟨0, 1, 1, 0⟩], maxStack := 1, maxLocals := 4 }

/-- The call is replaced by six bytes, one more than it has, which need a gap. -/
theorem replace_exact_retry :
    (ofInstruction retryClass 0 1 = .ok retryCall ∧ retryClass.codeAt? 0 = some retryCode ∧
      Bytecode.starts retryCode.bytes = .ok [0, 1, 6, 7, 8] ∧ 1 ∈ [0, 1, 6, 7, 8] ∧
      ∀ h ∈ retryCode.handlers, ∀ p ∈ h.positions,
        p ∈ [0, 1, 6, 7, 8] ∨ p = retryCode.bytes.size) ∧
      ∃ call' c', (replace (constantCompiler firstArgument) "$_ = $1;").runOn
          ((), retryCall, retryClass) = (.ok (), (), call', c') ∧
        ∃ r : Replacement, r.old = retryCode ∧ r.Exact 1 [0, 1, 6, 7, 8] ∧
          c'.codeAt? 0 = some r.new ∧
          call' = { retryCall with stop := 1 + max r.body.length 5 } := by
  have hcall : ofInstruction retryClass 0 1 = .ok retryCall := by decide +kernel
  have hcode : retryClass.codeAt? 0 = some retryCode := by decide +kernel
  have hstarts : Bytecode.starts retryCode.bytes = .ok [0, 1, 6, 7, 8] := by decide +kernel
  have hhandlers : ∀ h ∈ retryCode.handlers, ∀ p ∈ h.positions,
      p ∈ [0, 1, 6, 7, 8] ∨ p = retryCode.bytes.size := by decide
  have hreplaced : ((replace (constantCompiler firstArgument) "$_ = $1;").runOn
      ((), retryCall, retryClass)).1 = .ok () := by decide +kernel
  have houtcome := Edit.runOn_eq_of_fst _ hreplaced
  obtain ⟨r, hold, -, hexact, hnew, hstop⟩ :=
    replace_exact hcall hcode hstarts (by decide) hhandlers houtcome
  exact ⟨⟨hcall, hcode, hstarts, by decide, hhandlers⟩, _, _, houtcome,
    r, hold, hexact, hnew, hstop⟩

end CallSite

end JvmClass
