import JvmClass.Proofs.CallSite.Alignment

/-!
# Searches for dynamic calls

A search goes over the instructions of a body to its next dynamic call. After a call
was replaced, it goes on behind the code in its place, over what is left of the gap,
which does nothing, and then over the instructions that were behind the call. So it
finds the calls of the old body one after the other, with the indices that they had,
and no call that has come in with a replacement.
-/

namespace JvmClass

namespace Bytecode

variable {code old new : Bytecode} {p q n first last : Nat} {starts : List Nat}

/-! ## Dynamic calls -/

/-- A dynamic call has no distance in it. -/
theorem branchFieldsAt_of_invokeDynamic (hcall : code[p]? = some Opcode.invokeDynamic) :
    code.branchFieldsAt p = [] := by
  have layout : Layout.ofOpcode Opcode.invokeDynamic = .fixed 4 := rfl
  rw [branchFieldsAt_of_fixed hcall layout]
  rfl

/-- A dynamic call that has moved names the index that it named. -/
theorem Moved.dynamicCallAt?_eq {route : Int → Int} (moved : Moved route old new p q)
    (hcall : old[p]? = some Opcode.invokeDynamic) :
    new.dynamicCallAt? q = old.dynamicCallAt? p := by
  obtain ⟨n, hl, hl'⟩ := moved.length
  cases instructionLength_of_invokeDynamic hcall hl
  have hindex : new.u16At? (q + 1) = old.u16At? (p + 1) := by
    refine u16At?_congr fun i hi => ?_
    rw [Nat.add_assoc, Nat.add_assoc]
    exact moved.byte_eq hl (branchFieldsAt_of_invokeDynamic hcall) (by omega)
  unfold dynamicCallAt?
  rw [moved.opcode_eq, hindex, if_pos ⟨add_instructionLength_le hl', hcall⟩,
    if_pos ⟨add_instructionLength_le hl, hcall⟩]

/-- A search passes instructions that are no dynamic calls. -/
theorem Walk.nextDynamicCall?_eq (walk : Walk code first starts last)
    (hother : ∀ p ∈ starts, code[p]? ≠ some Opcode.invokeDynamic) :
    code.nextDynamicCall? first = code.nextDynamicCall? last := by
  induction walk with
  | stop => rfl
  | @step position length last starts hl rest ih =>
    have hone := one_le_instructionLength hl
    have hle := add_instructionLength_le hl
    have hbyte : code[position] ≠ Opcode.invokeDynamic := by
      have h := hother position List.mem_cons_self
      rwa [Array.getElem?_eq_getElem (by omega), ne_eq, Option.some.injEq] at h
    rw [← ih fun p hp => hother p (List.mem_cons_of_mem _ hp), nextDynamicCall?,
      dif_pos (by omega), if_neg hbyte]
    split
    · next heq => cases heq.symm.trans hl
    · next heq =>
      cases heq.symm.trans hl
      rfl

/-! ## Searches -/

/-- A search over code that has grown is on its way to instructions of the old code. The
first of them was at `first`. -/
structure Searching (grown first : Nat) (pending : List Nat) (position : Nat)
    (old new : Bytecode) : Prop where
  /-- The instructions have moved. -/
  stretched : Stretched grown first pending old new
  /-- All before them can be walked. -/
  passed : ∃ passed, Walk new 0 passed (first + grown)
  /-- There is no dynamic call on the way. -/
  ahead : ∃ skipped, Walk new position skipped (first + grown) ∧
    ∀ p ∈ skipped, new[p]? ≠ some Opcode.invokeDynamic

namespace Searching

variable {grown position : Nat} {pending : List Nat}

/-- A search begins at the first instruction. -/
theorem start (walk : Walk code 0 starts code.size) : Searching 0 0 starts 0 code code :=
  ⟨.refl walk, ⟨[], .stop _⟩, ⟨[], .stop _, fun _ h => by cases h⟩⟩

/-- A search has nothing to find behind the last instruction. -/
theorem next_nil (searching : Searching grown first [] position old new) :
    new.nextDynamicCall? position = .ok none := by
  obtain ⟨skipped, way, hskipped⟩ := searching.ahead
  have hend := searching.stretched.walk_pending.last_unique (.stop _)
  rw [way.nextDynamicCall?_eq hskipped, ← hend, nextDynamicCall?, dif_neg (Nat.lt_irrefl _)]

section Cons

variable (searching : Searching grown first (p :: pending) position old new)
include searching

/-- The next instruction can be walked to and has moved. -/
theorem exists_moved : ∃ n route, first = p ∧ old.instructionLength p = .ok n ∧
    Moved route old new p (p + grown) ∧ new.instructionLength (p + grown) = .ok n ∧
    (∃ passed, Walk new 0 passed (p + grown)) ∧
    Walk new (p + n + grown) (pending.map (· + grown)) new.size := by
  obtain rfl := searching.stretched.walk.first_eq
  obtain ⟨route, moved⟩ := searching.stretched.moved first List.mem_cons_self
  obtain ⟨n, hl, hl'⟩ := moved.length
  have rest := (searching.stretched.tail hl).walk_pending
  exact ⟨n, route, rfl, hl, moved, hl', searching.passed, rest⟩

/-- A search passes an instruction that is no dynamic call. -/
theorem skip (hother : old[p]? ≠ some Opcode.invokeDynamic) :
    ∃ next, Searching grown next pending position old new := by
  obtain ⟨n, route, rfl, hl, moved, hl', ⟨passed, before⟩, -⟩ := searching.exists_moved
  obtain ⟨skipped, way, hskipped⟩ := searching.ahead
  have hstep : Walk new (first + grown) [first + grown] (first + n + grown) := by
    rw [Nat.add_right_comm]
    exact .step hl' (.stop _)
  refine ⟨first + n, searching.stretched.tail hl, ⟨_, before.trans hstep⟩, _, way.trans hstep, ?_⟩
  intro q hq
  rcases List.mem_append.mp hq with hq | hq
  · exact hskipped q hq
  · rw [List.mem_singleton.mp hq, moved.opcode_eq]
    exact hother

variable (hcall : old[p]? = some Opcode.invokeDynamic)
include hcall

/-- A search stops at a dynamic call. -/
theorem next_call : new.nextDynamicCall? position = .ok (some (p + grown)) := by
  obtain ⟨n, route, rfl, -, moved, hl', -⟩ := searching.exists_moved
  obtain ⟨skipped, way, hskipped⟩ := searching.ahead
  have hone := one_le_instructionLength hl'
  have hle := add_instructionLength_le hl'
  have hbyte := moved.opcode_eq.trans hcall
  rw [Array.getElem?_eq_getElem (by omega), Option.some.injEq] at hbyte
  rw [way.nextDynamicCall?_eq hskipped, nextDynamicCall?, dif_pos (by omega), if_pos hbyte]

/-- A search goes on behind a dynamic call that was left alone. -/
theorem leave : Searching grown (p + 5) pending (p + grown + 5) old new := by
  obtain ⟨n, route, rfl, hl, -, hl', ⟨passed, before⟩, -⟩ := searching.exists_moved
  cases instructionLength_of_invokeDynamic hcall hl
  have behind := before.trans (.step hl' (.stop _))
  rw [Nat.add_right_comm] at behind ⊢
  exact ⟨searching.stretched.tail hl, ⟨_, behind⟩, [], .stop _, fun _ h => by cases h⟩

/-- The code can be walked over the dynamic call and all behind it. -/
theorem exists_walk : ∃ starts, Walk new 0 starts new.size ∧ p + grown ∈ starts ∧
    ∀ q ∈ pending, q + grown ∈ starts := by
  obtain ⟨n, route, rfl, -, -, hl', ⟨passed, before⟩, rest⟩ := searching.exists_moved
  rw [Nat.add_right_comm] at rest
  refine ⟨_, before.trans (.step hl' rest), ?_, fun q hq => ?_⟩
  · exact List.mem_append_right _ List.mem_cons_self
  · exact List.mem_append_right _ (List.mem_cons_of_mem _ (List.mem_map_of_mem hq))

end Cons

end Searching

end Bytecode

/-! ## Searches behind a replacement -/

/-- A search goes on behind the code that has taken the place of a dynamic call, at the
instructions that were behind the call. -/
theorem Code.Spliced.searching {old : Bytecode} {now new : Code} {grown first p position : Nat}
    {pending starts : List Nat} {body : List UInt8}
    (spliced : now.Spliced (p + grown) body starts new)
    (searching : Bytecode.Searching grown first (p :: pending) position old now.bytes)
    (hcall : old[p]? = some Opcode.invokeDynamic)
    (walk : Bytecode.Walk now.bytes 0 starts now.bytes.size) (hmem : p + grown ∈ starts)
    (hpending : ∀ q ∈ pending, q + grown ∈ starts)
    (hbody : ∃ passed, Bytecode.Walk new.bytes (p + grown) passed (p + grown + body.length)) :
    Bytecode.Searching (grown + (CallSite.shift (p + grown) body.length).gap) (p + 5) pending
      (p + grown + max body.length 5) old new.bytes := by
  obtain ⟨n, route, rfl, hl, -, -, -, -⟩ := searching.exists_moved
  cases Bytecode.instructionLength_of_invokeDynamic hcall hl
  obtain ⟨passed, code⟩ := hbody
  have hlength := CallSite.length_le_gap (first + grown) body.length
  have hgap := CallSite.gap_eq_zero_iff (first + grown) body.length
  have hend : first + 5 + (grown + (CallSite.shift (first + grown) body.length).gap) =
      first + grown + 5 + (CallSite.shift (first + grown) body.length).gap := by omega
  refine ⟨(searching.stretched.tail hl).grow _ spliced.size fun q hq => ?_, ?_, ?_⟩
  · -- what was behind the call is moved by the gap
    have hbehind := ((searching.stretched.tail hl).walk.mem_bounds hq).1
    have moved := (spliced.others _ (hpending q hq) (by omega)).moved
      (Code.gapLength_mod_four (body.length - 5))
    have hstart : (CallSite.shift (first + grown) body.length).start (q + grown) =
        q + grown + (CallSite.shift (first + grown) body.length).gap :=
      if_pos (by show first + grown ≤ _; omega)
    rw [hstart] at moved
    exact ⟨_, moved⟩
  · rw [hend]
    exact ⟨_, ((spliced.walk_before walk hmem).trans code).trans spliced.walk_padding⟩
  · rw [hend]
    rcases Nat.lt_or_ge 5 body.length with hlong | hshort
    · rw [Nat.max_eq_left (Nat.le_of_lt hlong)]
      refine ⟨_, spliced.walk_padding, fun q hq => ?_⟩
      obtain ⟨hfrom, hto⟩ := List.mem_range'_1.mp hq
      have hnop := spliced.padding (q - (first + grown + body.length))
        (by rw [List.length_replicate]; omega)
      rw [List.getElem?_replicate, if_pos (by omega), Nat.add_sub_cancel' hfrom] at hnop
      rw [hnop]
      decide
    · rw [Nat.max_eq_right hshort, hgap.mpr hshort]
      exact ⟨[], .stop _, fun _ h => by cases h⟩

end JvmClass
