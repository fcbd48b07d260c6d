import JvmClass.Proofs.CallSite.Replaced
import JvmClass.Proofs.ConstantPool.Resolution
import JvmClass.Proofs.Instruction.Spread

/-!
# Opening calls

A call is opened by its position. Only the five bytes there are looked at, not where
the instructions of the body start, so what is opened in a body that can be walked is
a dynamic call of the class, or a row of bytes that looks like one and starts inside
another instruction: in its operands, in its table or in its padding.
-/

namespace JvmClass

namespace ClassFile

variable (c : ClassFile)

/-- The bytes at a position are those of a dynamic call, and what they name is a call
site entry of the pool. -/
structure NamesCallSite (code : Bytecode) (position : Nat) : Prop where
  /-- The first byte is the opcode of dynamic calls. -/
  opcode : code[position]? = some Opcode.invokeDynamic
  /-- The next two bytes are the index of a call site entry. -/
  entry : ∃ i b n, code.u16At? (position + 1) = some i ∧
    c.pool.entry i = .ok (.dynamic .callSite b n)

/-- An instruction of a method starts at a position, and it is a dynamic call that
names a call site entry. -/
def HasCallAt (method position : Nat) : Prop :=
  ∃ code starts, c.codeAt? method = some code ∧ Bytecode.starts code.bytes = .ok starts ∧
    position ∈ starts ∧ c.NamesCallSite code.bytes position

/-- The bytes of a dynamic call that names a call site entry start inside an
instruction of a method, and the body does not end before them. -/
def HidesCallAt (method position : Nat) : Prop :=
  ∃ code starts p n, c.codeAt? method = some code ∧ Bytecode.starts code.bytes = .ok starts ∧
    p ∈ starts ∧ Bytecode.instructionLength code.bytes p = .ok n ∧ p < position ∧
    position < p + n ∧ position + 5 ≤ code.bytes.size ∧ c.NamesCallSite code.bytes position

end ClassFile

namespace CallSite

variable {c : ClassFile} {method position : Nat}

/-- A call is opened exactly if the method has a body, which does not end before five
bytes from the position on, and these are the bytes of a dynamic call that names a
call site entry. -/
theorem exists_ofInstruction_iff :
    (∃ call, ofInstruction c method position = .ok call) ↔
      ∃ code, c.codeAt? method = some code ∧ position + 5 ≤ code.bytes.size ∧
        c.NamesCallSite code.bytes position := by
  constructor
  · rintro ⟨call, h⟩
    obtain ⟨-, -, code, hcode, hopcode⟩ := ofInstruction_eq_ok h
    obtain ⟨hindex, -⟩ := index_and_stop_of_ofInstruction h hcode
    unfold ofInstruction at h
    rw [hcode] at h
    simp only [hindex] at h
    obtain ⟨⟨b, n⟩, hdynamic, -⟩ := bind_eq_ok_iff.mp h
    unfold Bytecode.dynamicCallAt? at hindex
    split at hindex
    · next hcall =>
      exact ⟨code, hcode, hcall.1, hopcode, _, b, n, hindex,
        ConstantPool.dynamic_eq_ok_iff.mp hdynamic⟩
    · cases hindex
  · rintro ⟨code, hcode, hroom, hopcode, i, b, n, hindex, hentry⟩
    have hfound : Bytecode.dynamicCallAt? code.bytes position = some i := by
      unfold Bytecode.dynamicCallAt?
      rw [if_pos ⟨hroom, hopcode⟩]
      exact hindex
    refine ⟨⟨method, position, position + 5, i, b⟩, ?_⟩
    unfold ofInstruction
    rw [hcode]
    simp only [hfound]
    exact bind_eq_ok_iff.mpr ⟨(b, n), ConstantPool.dynamic_eq_ok_iff.mpr hentry, rfl⟩

/-- A dynamic call of a body that can be walked is opened. -/
theorem exists_ofInstruction_of_hasCallAt (h : c.HasCallAt method position) :
    ∃ call, ofInstruction c method position = .ok call := by
  obtain ⟨code, starts, hcode, hstarts, hmem, hnames⟩ := h
  have walk := Bytecode.starts_eq_ok_iff.mp hstarts
  obtain ⟨n, hl⟩ := walk.exists_length hmem
  have hend := walk.add_length_le hmem hl (.inr rfl) (walk.mem_bounds hmem).2
  rw [Bytecode.instructionLength_of_invokeDynamic hnames.opcode hl] at hend
  exact exists_ofInstruction_iff.mpr ⟨code, hcode, hend, hnames⟩

/-- What starts inside an instruction is no instruction. -/
theorem not_hasCallAt_of_hidesCallAt (h : c.HidesCallAt method position) :
    ¬ c.HasCallAt method position := by
  rintro ⟨code', starts', hcode', hstarts', hmem, -⟩
  obtain ⟨code, starts, p, n, hcode, hstarts, hp, hl, hbefore, hbehind, -, -⟩ := h
  cases hcode.symm.trans hcode'
  cases hstarts.symm.trans hstarts'
  have hend := (Bytecode.starts_eq_ok_iff.mp hstarts).add_length_le hp hl (.inl hmem) hbefore
  omega

/-- What is opened in a body that can be walked is one of its calls, or starts inside
one of its instructions. -/
theorem exists_ofInstruction_iff_has_or_hides
    (hwalkable : ∀ code, c.codeAt? method = some code →
      ∃ starts, Bytecode.starts code.bytes = .ok starts) :
    (∃ call, ofInstruction c method position = .ok call) ↔
      c.HasCallAt method position ∨ c.HidesCallAt method position := by
  constructor
  · intro h
    obtain ⟨code, hcode, hroom, hnames⟩ := exists_ofInstruction_iff.mp h
    obtain ⟨starts, hstarts⟩ := hwalkable code hcode
    have walk := Bytecode.starts_eq_ok_iff.mp hstarts
    -- the walk covers the body, so the first byte belongs to some instruction
    obtain ⟨p, hp, n, hl, hbefore, hbehind⟩ :=
      walk.exists_around (Nat.zero_le position) (by omega)
    rcases Nat.lt_or_eq_of_le hbefore with hinside | rfl
    · exact .inr ⟨code, starts, p, n, hcode, hstarts, hp, hl, hinside, hbehind, hroom, hnames⟩
    · exact .inl ⟨code, starts, hcode, hstarts, hp, hnames⟩
  · rintro (h | ⟨code, _, _, _, hcode, -, -, -, -, -, hroom, hnames⟩)
    · exact exists_ofInstruction_of_hasCallAt h
    · exact exists_ofInstruction_iff.mpr ⟨code, hcode, hroom, hnames⟩

/-- In a body that can be walked, a call is opened exactly if there is one, unless
bytes that look like one start inside an instruction. -/
theorem opens_calls_iff
    (hwalkable : ∀ code, c.codeAt? method = some code →
      ∃ starts, Bytecode.starts code.bytes = .ok starts) :
    ((∃ call, ofInstruction c method position = .ok call) ↔ c.HasCallAt method position) ↔
      ¬ c.HidesCallAt method position := by
  rw [exists_ofInstruction_iff_has_or_hides hwalkable]
  constructor
  · exact fun h hhides => not_hasCallAt_of_hidesCallAt hhides (h.mp (.inr hhides))
  · exact fun hnot => or_iff_left hnot

/-- The body that can be retried hides nothing at its call, which is opened. -/
theorem opens_calls_iff_retry :
    (∀ code, retryClass.codeAt? 0 = some code →
      ∃ starts, Bytecode.starts code.bytes = .ok starts) ∧
      retryClass.HasCallAt 0 1 ∧ ¬ retryClass.HidesCallAt 0 1 := by
  have hcode : retryClass.codeAt? 0 = some retryCode := by decide +kernel
  have hstarts : Bytecode.starts retryCode.bytes = .ok [0, 1, 6, 7, 8] := by decide +kernel
  have hwalkable : ∀ code, retryClass.codeAt? 0 = some code →
      ∃ starts, Bytecode.starts code.bytes = .ok starts := by
    intro code h
    cases hcode.symm.trans h
    exact ⟨_, hstarts⟩
  have hcall : retryClass.HasCallAt 0 1 :=
    ⟨retryCode, _, hcode, hstarts, by decide, by decide, 6, 0, 5, by decide +kernel,
      by decide +kernel⟩
  have hopened : ofInstruction retryClass 0 1 = .ok retryCall := by decide +kernel
  exact ⟨hwalkable, hcall, (opens_calls_iff hwalkable).mp (iff_of_true ⟨_, hopened⟩ hcall)⟩

/-- The class with a body that pushes a number, of which the first byte is the opcode
of dynamic calls. -/
def pushingClass : ClassFile :=
  retryClass.withCodeAt 0
    { retryCode with bytes := #[0x11, 0xba, 0, 6, 0, 0, 0xb1], handlers := [] }

/-- The operand of the push is opened, although no instruction starts there. -/
theorem opens_operand :
    ((pushingClass.codeAt? 0).map fun code => Bytecode.starts code.bytes) =
        some (.ok [0, 3, 4, 5, 6]) ∧
      ofInstruction pushingClass 0 1 = .ok retryCall ∧ ¬ pushingClass.HasCallAt 0 1 := by
  have hstarts : ((pushingClass.codeAt? 0).map fun code => Bytecode.starts code.bytes) =
      some (.ok [0, 3, 4, 5, 6]) := by decide +kernel
  refine ⟨hstarts, by decide +kernel, ?_⟩
  rintro ⟨code, starts, hcode, hfound, hmem, -⟩
  rw [hcode, Option.map_some, hfound] at hstarts
  cases hstarts
  revert hmem
  decide

end CallSite

end JvmClass
