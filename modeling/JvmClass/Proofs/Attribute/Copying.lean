import JvmClass.Code.Copy
import JvmClass.Proofs.Code.GapTables
import JvmClass.Proofs.ConstantPool.Lasting

/-!
# Copied attributes

Copying attributes, and the exception table of a body, renumbers what they refer
to in the pool. It leaves all positions as they are, and all else that is no index:
lines, slots, flags, the forms of frames, and the order of every table.
-/

namespace JvmClass

open ConstantPool (Lasting OnlyAdds lasting_pure lasting_lift lasting_mapM lasting_internText
  lasting_copy onlyAdds_bind onlyAdds_lift onlyAdds_pure onlyAdds_throw onlyAdds_copy)

variable (source : ConstantPool) (names : Renaming)

/-! ## Handlers -/

/-- A copied handler catches the renamed class, for the same range. -/
structure Handler.CopyOf (pool : ConstantPool) (old new : Handler) : Prop where
  /-- The positions are the same. -/
  positions : (new.start, new.stop, new.target) = (old.start, old.stop, old.target)
  /-- The class is renumbered. -/
  catchType : source.Renumbered names pool old.catchType new.catchType

/-- A copied handler refers to the same positions. -/
theorem Handler.CopyOf.positions_eq {source : ConstantPool} {names : Renaming}
    {pool : ConstantPool} {old new : Handler} (copied : CopyOf source names pool old new) :
    new.positions = old.positions := by
  have hfields := copied.positions
  simp only [Prod.mk.injEq] at hfields
  unfold Handler.positions
  rw [hfields.1, hfields.2.1, hfields.2.2]

/-- A handler is copied for good. -/
theorem lasting_copyHandler (h : Handler) :
    Lasting (Code.copyHandler source names h) (Handler.CopyOf source names · h) :=
  (lasting_copy source names h.catchType).bind fun _ => lasting_pure fun _ hcopied =>
    ⟨rfl, hcopied.1⟩

/-! ## Local variables -/

/-- A copied variable has the same name, slot and range, and its type with all
classes renamed. -/
structure LocalVariable.CopyOf (rename : String → String) (pool : ConstantPool)
    (old new : LocalVariable) : Prop where
  /-- The range and the slot are the same. -/
  range : (new.start, new.length, new.slot) = (old.start, old.length, old.slot)
  /-- The name is the same. -/
  name : ∃ name, source.text old.nameIndex = .ok name ∧ pool.text new.nameIndex = .ok name
  /-- The type is renamed. -/
  type : ∃ type, source.text old.typeIndex = .ok type ∧ pool.text new.typeIndex = .ok (rename type)

/-- A copied variable is live in the same range, in the same slot. -/
theorem LocalVariable.CopyOf.range_eq {source : ConstantPool} {rename : String → String}
    {pool : ConstantPool} {old new : LocalVariable} (copied : CopyOf source rename pool old new) :
    new.start = old.start ∧ new.stop = old.stop ∧ new.slot = old.slot := by
  have hfields := copied.range
  simp only [Prod.mk.injEq] at hfields
  obtain ⟨hstart, hlength, hslot⟩ := hfields
  refine ⟨hstart, ?_, hslot⟩
  unfold LocalVariable.stop
  rw [hstart, hlength]

/-- A variable is copied for good. -/
theorem lasting_copyVariable (rename : String → String) (v : LocalVariable) :
    Lasting (AttributeData.copyVariable source rename v)
      (LocalVariable.CopyOf source rename · v) := by
  refine (lasting_lift _).bind fun type => (lasting_internText (rename type)).bind fun _ => ?_
  refine (lasting_lift _).bind fun name => (lasting_internText name).bind fun _ => ?_
  refine lasting_pure fun pool hcopied hname hrenamed htype => ?_
  exact ⟨rfl, ⟨name, hname, hcopied⟩, ⟨type, htype, hrenamed⟩⟩

/-! ## Stack maps -/

/-- A copied type is the same, or the renamed class. -/
def VerificationType.CopyOf (pool : ConstantPool) : VerificationType → VerificationType → Prop
  | .object i, .object j => source.Renumbered names pool i j
  | old, new => new = old

/-- Frames say the same, up to a relation between their types. -/
structure StackFrame.Content.Matches (R : VerificationType → VerificationType → Prop)
    (old new : Content) : Prop where
  /-- The same locals are gone. -/
  gone : new.gone = old.gone
  /-- The same locals come in addition. -/
  locals : List.Forall₂ R old.locals new.locals
  /-- The operands are the same. -/
  operands : List.Forall₂ R old.operands new.operands

/-- A copied frame has the same form and distance, and says the same of copied
types. -/
structure StackFrame.CopyOf (pool : ConstantPool) (old new : StackFrame) : Prop where
  /-- The distance is the same. -/
  delta : new.delta = old.delta
  /-- All but the types is the same. -/
  form : new.mapTypes (fun _ => .top) = old.mapTypes (fun _ => .top)
  /-- The types are copied. -/
  content : Content.Matches (VerificationType.CopyOf source names pool) old.content new.content

/-- A type is copied for good. -/
theorem lasting_copyVerificationType (type : VerificationType) :
    Lasting (AttributeData.copyVerificationType source names type)
      (VerificationType.CopyOf source names · type) := by
  cases type with
  | object i => exact (lasting_copy source names i).map fun _ _ h => h.1
  | _ => exact lasting_pure fun _ => rfl

/-- Related types are as many, so that they cannot be told apart without their
values. -/
theorem VerificationType.map_top_eq {R : VerificationType → VerificationType → Prop}
    {old new : List VerificationType} (related : List.Forall₂ R old new) :
    new.map (fun _ => VerificationType.top) = old.map (fun _ => VerificationType.top) := by
  rw [List.map_const', List.map_const', related.length_eq]

/-- A frame is copied for good. -/
theorem lasting_copyFrame (frame : StackFrame) :
    Lasting (frame.traverseTypes (AttributeData.copyVerificationType source names))
      (StackFrame.CopyOf source names · frame) := by
  have hone := lasting_copyVerificationType source names
  have hall (types : List VerificationType) := lasting_mapM fun type (_ : type ∈ types) => hone type
  cases frame with
  | same | chop | sameExtended => exact lasting_pure fun _ => ⟨rfl, rfl, rfl, .nil, .nil⟩
  | oneOperand delta operand | oneOperandExtended delta operand =>
    exact (hone operand).map fun _ _ h => ⟨rfl, rfl, rfl, .nil, .cons h .nil⟩
  | append delta locals =>
    refine (hall locals).map fun _ _ h => ⟨rfl, ?_, rfl, h, .nil⟩
    exact congrArg (StackFrame.append delta) (VerificationType.map_top_eq h)
  | full delta locals operands =>
    refine (hall locals).bind fun locals' => (hall operands).bind fun operands' => ?_
    refine lasting_pure fun _ hoperands hlocals => ⟨rfl, ?_, rfl, hlocals, hoperands⟩
    exact congrArg₂ (StackFrame.full delta) (VerificationType.map_top_eq hlocals)
      (VerificationType.map_top_eq hoperands)

/-! ## Inner classes and bootstrap methods -/

/-- A copied entry names the renamed classes, and has the same simple name and
flags. -/
structure InnerClass.CopyOf (pool : ConstantPool) (old new : InnerClass) : Prop where
  /-- The inner class is renumbered. -/
  inner : source.Renumbered names pool old.inner new.inner
  /-- The class around it is renumbered. -/
  outer : source.Renumbered names pool old.outer new.outer
  /-- The simple name is renumbered. -/
  name : source.Renumbered names pool old.name new.name
  /-- The simple name is the same text. -/
  text : old.name ≠ 0 → ∀ s, source.text old.name = .ok s → pool.text new.name = .ok s
  /-- The flags are the same. -/
  flags : new.flags = old.flags

/-- An entry of the table of inner classes is copied for good. -/
theorem lasting_copyInnerClass (c : InnerClass) :
    Lasting (AttributeData.copyInnerClass source names c) (InnerClass.CopyOf source names · c) := by
  have hcopy := lasting_copy source names
  refine (hcopy c.inner).bind fun inner => (hcopy c.outer).bind fun outer => ?_
  refine (hcopy c.name).bind fun name => lasting_pure fun _ hname houter hinner => ?_
  exact ⟨hinner.1, houter.1, hname.1, fun hne _ => hname.1.text hne, rfl⟩

/-- A copied bootstrap method has the renamed handle, and the renamed arguments in
the same order. -/
structure BootstrapMethod.CopyOf (pool : ConstantPool) (old new : BootstrapMethod) : Prop where
  /-- The handle is renumbered. -/
  handle : source.Renumbered names pool old.handle new.handle
  /-- The arguments are renumbered. -/
  arguments : List.Forall₂ (source.Renumbered names pool) old.arguments new.arguments

/-- Several constants are copied for good. -/
theorem lasting_copyIndices (indices : List UInt16) :
    Lasting (indices.mapM (source.copy names)) fun pool copies =>
      List.Forall₂ (source.Renumbered names pool) indices copies :=
  lasting_mapM fun i _ => (lasting_copy source names i).imp fun _ _ h => h.1

/-- A bootstrap method is copied for good. -/
theorem lasting_copyBootstrapMethod (m : BootstrapMethod) :
    Lasting (AttributeData.copyBootstrapMethod source names m)
      (BootstrapMethod.CopyOf source names · m) := by
  refine (lasting_copy source names m.handle).bind fun handle => ?_
  refine (lasting_copyIndices source names m.arguments).bind fun arguments => ?_
  exact lasting_pure fun _ harguments hhandle => ⟨hhandle.1, harguments⟩

/-! ## Attributes -/

/-- A copied payload is of the same kind. It says the same, entry for entry, of the
same positions and of renumbered constants. -/
def AttributeData.CopyOf (pool : ConstantPool) : AttributeData → AttributeData → Prop
  | .exceptions old, .exceptions new => List.Forall₂ (source.Renumbered names pool) old new
  | .constantValue old, .constantValue new => source.Renumbered names pool old new
  | .sourceFile old, .sourceFile new =>
    ∃ name, source.text old = .ok name ∧ pool.text new = .ok name
  | .lineNumbers old, .lineNumbers new => new = old
  | .localVariables old, .localVariables new =>
    List.Forall₂ (LocalVariable.CopyOf source names.descriptor pool) old new
  | .localVariableTypes old, .localVariableTypes new =>
    List.Forall₂ (LocalVariable.CopyOf source id pool) old new
  | .stackMap old, .stackMap new => List.Forall₂ (StackFrame.CopyOf source names pool) old new
  | .synthetic, .synthetic => True
  | .innerClasses old, .innerClasses new =>
    List.Forall₂ (InnerClass.CopyOf source names pool) old new
  | .bootstrapMethods old, .bootstrapMethods new =>
    List.Forall₂ (BootstrapMethod.CopyOf source names pool) old new
  | .raw old, .raw new => new = old
  | _, _ => False

/-- A copied payload is of the same kind. -/
theorem AttributeData.kind_of_copyOf {source : ConstantPool} {names : Renaming}
    {pool : ConstantPool} {old new : AttributeData} (copied : CopyOf source names pool old new) :
    new.kind = old.kind := by
  cases old <;> cases new <;> first | rfl | cases copied

/-- A copied payload of an attribute. Nothing is said here of a body. -/
def AttributeBody.CopyOf (pool : ConstantPool) : AttributeBody → AttributeBody → Prop
  | .data old, .data new => AttributeData.CopyOf source names pool old new
  | old, new => new.kind = old.kind

/-- A copied attribute has the same name and a copied payload. -/
structure Attribute.CopyOf (pool : ConstantPool) (old new : Attribute) : Prop where
  /-- The name is the same. -/
  name : ∃ name, source.text old.nameIndex = .ok name ∧ pool.text new.nameIndex = .ok name
  /-- The payload is copied. -/
  body : AttributeBody.CopyOf source names pool old.body new.body

/-- A payload is copied for good. -/
theorem lasting_copyPayload (payload : AttributeData) :
    Lasting (payload.copy source names) (AttributeData.CopyOf source names · payload) := by
  have hcopy := lasting_copy source names
  cases payload with
  | exceptions classes => exact (lasting_copyIndices source names classes).map fun _ _ h => h
  | constantValue index => exact (hcopy index).map fun _ _ h => h.1
  | sourceFile index =>
    exact (lasting_lift _).bind fun name => (lasting_internText name).map
      fun _ _ hcopied hname => ⟨name, hname, hcopied⟩
  | lineNumbers table => exact lasting_pure fun _ => rfl
  | localVariables table =>
    exact (lasting_mapM fun v _ => lasting_copyVariable source names.descriptor v).map
      fun _ _ h => h
  | localVariableTypes table =>
    exact (lasting_mapM fun v _ => lasting_copyVariable source id v).map fun _ _ h => h
  | stackMap frames =>
    exact (lasting_mapM fun frame _ => lasting_copyFrame source names frame).map fun _ _ h => h
  | synthetic => exact lasting_pure fun _ => trivial
  | raw bytes => exact lasting_pure fun _ => rfl
  | innerClasses table =>
    exact (lasting_mapM fun c _ => lasting_copyInnerClass source names c).map fun _ _ h => h
  | bootstrapMethods table =>
    exact (lasting_mapM fun m _ => lasting_copyBootstrapMethod source names m).map fun _ _ h => h

/-! ## Nested attributes -/

/-- An edit that visits instructions only adds if every visit does. -/
theorem onlyAdds_foldInstructions {β : Type} {code : Bytecode}
    {visit : β → Nat → UInt8 → Edit ConstantPool β} (h : ∀ acc p op, OnlyAdds (visit acc p op))
    (acc : β) (position : Nat) :
    OnlyAdds (code.foldInstructions (m := Edit ConstantPool) visit acc position) := by
  fun_induction Bytecode.foldInstructions with
  | case1 acc position hlt e he => exact onlyAdds_throw e
  | case2 acc position hlt length hl ih => exact onlyAdds_bind (h ..) ih
  | case3 acc position hge => exact onlyAdds_pure acc

/-- The operands of a body are copied. -/
theorem onlyAdds_copyOperands (code : Bytecode) : OnlyAdds (code.copyOperands source names) := by
  refine onlyAdds_foldInstructions (fun changes p op => ?_) _ _
  unfold Bytecode.copyOperand
  split
  · refine onlyAdds_bind (onlyAdds_copy ..) fun i => ?_
    split <;> exact onlyAdds_pure _
  · split
    · exact onlyAdds_bind (onlyAdds_copy ..) fun _ => onlyAdds_pure _
    · exact onlyAdds_pure _

mutual

/-- An attribute is copied for good. -/
theorem lasting_copyAttribute : ∀ a : Attribute,
    Lasting (Attribute.copy source names a) (Attribute.CopyOf source names · a)
  | ⟨nameIndex, body⟩ => by
    have hbody := lasting_copyBody body
    rw [Attribute.copy]
    refine (lasting_lift _).bind fun name => (lasting_internText name).bind fun _ => ?_
    refine hbody.bind fun body => lasting_pure fun _ hcopied hnamed hname => ?_
    exact ⟨⟨name, hname, hnamed⟩, hcopied⟩

/-- The payload of an attribute is copied for good. -/
theorem lasting_copyBody : ∀ body : AttributeBody,
    Lasting (AttributeBody.copy source names body) (AttributeBody.CopyOf source names · body)
  | .code body => by
    rw [AttributeBody.copy]
    exact (onlyAdds_copyCode body).lasting.bind fun _ => lasting_pure fun _ _ => rfl
  | .data payload => by
    rw [AttributeBody.copy]
    exact (lasting_copyPayload source names payload).bind fun _ => lasting_pure fun _ h => h

/-- A body is copied. -/
theorem onlyAdds_copyCode : ∀ code : Code, OnlyAdds (Code.copy source names code)
  | ⟨maxStack, maxLocals, bytes, handlers, attributes⟩ => by
    rw [Code.copy]
    refine onlyAdds_bind (lasting_copyList attributes []).adds fun _ => ?_
    refine onlyAdds_bind (lasting_mapM fun h _ => lasting_copyHandler source names h).adds ?_
    exact fun _ => onlyAdds_bind (onlyAdds_copyOperands ..) fun _ => onlyAdds_lift _

/-- Attributes are copied one by one. -/
theorem lasting_copyList : ∀ (list done : List Attribute),
    Lasting (Attribute.copyList source names done list) fun pool out =>
      ∃ copies, out = done.reverse ++ copies ∧
        List.Forall₂ (Attribute.CopyOf source names pool) list copies
  | [], done => by
    rw [Attribute.copyList]
    exact lasting_pure fun _ => ⟨[], by simp, .nil⟩
  | a :: list, done => by
    rw [Attribute.copyList]
    refine (lasting_copyAttribute a).bind fun b => ?_
    refine (lasting_copyList list (b :: done)).imp fun _ out => ?_
    rintro ⟨copies, hout, hcopies⟩ hb
    exact ⟨b :: copies, by simpa using hout, .cons hb hcopies⟩

end

end JvmClass
