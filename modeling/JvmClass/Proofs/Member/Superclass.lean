import JvmClass.Proofs.CallSite.InSteps
import JvmClass.Proofs.Code.ConstructorSearch
import JvmClass.Proofs.ConstantPool.Permanence
import JvmClass.Proofs.Transform.Agreement

/-!
# Constructors of another superclass

A constructor calls one of its superclass. When the class gets another superclass, the
call has to lead there. The call is found by a search that looks at the class that it
leads to now, and the search still finds it after it was led to another class, unless
this is the class itself. So of two superclasses that are set one after the other, the
later one is left. Only the operand of the call changes, and it keeps the name and the
descriptor.
-/

namespace JvmClass

namespace Bytecode

variable {code mid new : Bytecode} {pool next : ConstantPool} {before starts : List Nat}
  {p q n : Nat} {m : MemberRef}

/-! ## Codes that differ in one operand -/

/-- Two codes are equal but for the two bytes behind a position. -/
structure SameButOperand (code new : Bytecode) (p : Nat) : Prop where
  /-- There are as many bytes. -/
  size : new.size = code.size
  /-- All other bytes are the same. -/
  bytes : ∀ j, j < p + 1 ∨ p + 3 ≤ j → new[j]? = code[j]?

/-- What differs in two steps. -/
theorem SameButOperand.trans (same : code.SameButOperand mid p)
    (later : mid.SameButOperand new p) : code.SameButOperand new p :=
  ⟨later.size.trans same.size, fun j hj => (later.bytes j hj).trans (same.bytes j hj)⟩

/-- Two bytes that are written are the operand before them. -/
theorem sameButOperand_overwrite (code : Bytecode) (p : Nat) (i : UInt16) :
    code.SameButOperand (code.overwrite (p + 1) (Codec.bytesOfU16 i)) p := by
  refine ⟨size_overwrite .., fun j hj => getElem?_overwrite_of_outside ?_⟩
  rw [Codec.length_bytesOfU16]
  omega

/-- An operand that lies within the code is read back. -/
theorem u16At?_overwrite (hroom : p + 2 ≤ code.size) (i : UInt16) :
    (code.overwrite p (Codec.bytesOfU16 i)).u16At? p = some i :=
  u16At?_of_bytes fun j hj => getElem?_overwrite_of_inside (by simpa using hj) (by simpa using hroom)

/-! ## The call after it was led elsewhere -/

/-- A direct call has two operand bytes. -/
theorem length_of_invokeSpecial (hop : code[p]? = some Opcode.invokeSpecial)
    (hl : code.instructionLength p = .ok n) : n = 3 := by
  obtain ⟨op, hop', hclaimed⟩ := (instructionLength_eq_ok_iff.mp hl).1.claimedLength
  cases hop.symm.trans hop'
  cases hclaimed
  rfl

/-- A direct call that lies within the code is complete. -/
theorem instructionLength_of_invokeSpecial (hop : code[p]? = some Opcode.invokeSpecial)
    (hroom : p + 3 ≤ code.size) : code.instructionLength p = .ok 3 :=
  instructionLength_eq_ok_iff.mpr ⟨.fixed hop rfl, hroom⟩

/-- What a direct call refers to is the member at its operand. -/
theorem callee?_eq_some_iff : code.callee? pool p = some m ↔
    code[p]? = some Opcode.invokeSpecial ∧
      ∃ i, code.u16At? (p + 1) = some i ∧ pool.member i = .ok m := by
  unfold callee?
  by_cases hop : code[p]? = some Opcode.invokeSpecial
  · rw [if_pos hop, Option.bind_eq_some_iff, and_iff_right hop]
    refine exists_congr fun i => and_congr_right fun _ => ?_
    cases pool.member i <;> simp [Except.toOption]
  · rw [if_neg hop]
    exact iff_of_false (fun h => by cases h) fun h => hop h.1

namespace SameButOperand

variable (same : code.SameButOperand new p) (grows : ConstantPool.Grows pool next)
include same grows

/-- A direct call before the operand refers to the same member as before. -/
theorem callee?_eq (hl : code.instructionLength q = .ok n) (hq : q + n ≤ p)
    (hresolves : code.Resolves pool q) : new.callee? next q = code.callee? pool q := by
  have hone := one_le_instructionLength hl
  have hbyte : new[q]? = code[q]? := same.bytes q (.inl (by omega))
  by_cases hop : code[q]? = some Opcode.invokeSpecial
  · cases length_of_invokeSpecial hop hl
    obtain ⟨m, hm⟩ := hresolves hop
    obtain ⟨-, i, hi, hmember⟩ := callee?_eq_some_iff.mp hm
    have hoperand : new.u16At? (q + 1) = code.u16At? (q + 1) :=
      u16At?_congr fun j hj => same.bytes _ (.inl (by omega))
    rw [hm, callee?_eq_some_iff]
    exact ⟨hbyte.trans hop, i, hoperand.trans hi, grows.memberOf hmember⟩
  · unfold callee?
    rw [if_neg hop, if_neg (hbyte ▸ hop)]

/-- Instructions before the operand are counted as before. -/
theorem counts_eq (walk : Walk code 0 before p) (accounted : code.Accounted pool before)
    (hsome : ∀ q ∈ starts, q ∈ before) :
    new.created starts = code.created starts ∧
      new.constructed next starts = code.constructed pool starts := by
  refine ⟨List.countP_congr fun q hq => ?_, List.countP_congr fun q hq => ?_⟩
  · have hlt := (walk.mem_bounds (hsome q hq)).2
    unfold creates
    rw [same.bytes q (.inl (by omega))]
  · obtain ⟨n, hl⟩ := walk.exists_length (hsome q hq)
    have hend := walk.add_length_le (hsome q hq) hl (.inr rfl) (walk.mem_bounds (hsome q hq)).2
    unfold callsConstructor
    rw [same.callee?_eq grows hl hend (accounted.resolves q (hsome q hq))]

/-- The call that is looked for is still the one after it was led to another constructor. -/
theorem delegates (delegates : code.Delegates pool before p)
    (hcallee : new.callee? next p = some m) (hname : m.name = constructorName) :
    new.Delegates next before p := by
  obtain ⟨walk, ⟨n, hl⟩, accounted, hcalls, hmore⟩ := delegates
  obtain ⟨hop, -⟩ := callee?_eq_some_iff.mp hcallee
  have hop' : code[p]? = some Opcode.invokeSpecial :=
    (same.bytes p (.inl (by omega))).symm.trans hop
  cases length_of_invokeSpecial hop' hl
  have hroom := add_instructionLength_le hl
  have hcalls' : new.callsConstructor next p = true := by
    unfold callsConstructor
    rw [hcallee]
    exact decide_eq_true hname
  have hcounts (starts : List Nat) (hsome : ∀ q ∈ starts, q ∈ before) :=
    same.counts_eq grows walk accounted hsome
  refine ⟨walk.of_bytes fun i _ hi => same.bytes i (.inl (by omega)),
    ⟨3, instructionLength_of_invokeSpecial hop (same.size.symm ▸ hroom)⟩,
    ⟨fun q hq => ?_, fun earlier q later hsplit hcall => ?_⟩, hcalls', ?_⟩
  · intro hspecial
    obtain ⟨k, hk⟩ := walk.exists_length hq
    obtain ⟨-, hlt⟩ := walk.mem_bounds hq
    have hend := walk.add_length_le hq hk (.inr rfl) hlt
    rw [same.callee?_eq grows hk hend (accounted.resolves q hq)]
    exact accounted.resolves q hq ((same.bytes q (.inl (by omega))).symm.trans hspecial)
  · have hsome : ∀ r ∈ earlier ++ [q], r ∈ before := fun r hr => by
      rw [hsplit]
      rcases List.mem_append.mp hr with hr | hr
      · exact List.mem_append_left _ hr
      · exact List.mem_append_right _ (List.mem_cons.mpr (.inl (List.mem_singleton.mp hr)))
    have hq : q ∈ before := hsome q (List.mem_append_right _ List.mem_cons_self)
    obtain ⟨k, hk⟩ := walk.exists_length hq
    have hend := walk.add_length_le hq hk (.inr rfl) (walk.mem_bounds hq).2
    unfold callsConstructor at hcall
    rw [same.callee?_eq grows hk hend (accounted.resolves q hq)] at hcall
    rw [(hcounts earlier fun r hr => hsome r (List.mem_append_left _ hr)).1, (hcounts _ hsome).2]
    exact accounted.matched earlier q later hsplit hcall
  · rw [constructed_concat, if_pos hcalls] at hmore
    rw [constructed_concat, if_pos hcalls', (hcounts before fun _ h => h).1,
      (hcounts before fun _ h => h).2]
    exact hmore

end SameButOperand

end Bytecode

/-! ## What the search for a super constructor finds -/

/-- The search for a constructor of another class finds the call that no created object is
left for, if it leads to another class. -/
theorem Cursor.found_superclass_iff {pool : ConstantPool} {cursor : Cursor} {p : Nat} :
    (∃ after, (skipConstructor pool .superclass).runOn cursor = (.ok (some p), after)) ↔
      ∃ owner before m, pool.ownerName = .ok owner ∧
        Bytecode.Delegates cursor.code.bytes pool before p ∧
        Bytecode.callee? cursor.code.bytes pool p = some m ∧ m.name = constructorName ∧
        m.className ≠ owner := by
  cases howner : pool.ownerName with
  | error e =>
    refine iff_of_false ?_ fun ⟨owner, _, _, h, _⟩ => by cases h
    rintro ⟨after, h⟩
    unfold skipConstructor at h
    rw [howner] at h
    cases h
  | ok owner =>
    have hends := ends_skipConstructor pool cursor
    have parts := partitioned howner cursor
    constructor
    · rintro ⟨after, hrun⟩
      rcases hany : (skipConstructor pool .any).runOn cursor with ⟨e | _ | q, place⟩
      · cases hrun.symm.trans ((parts.superclass_fails e place).mpr hany)
      · cases hrun.symm.trans (parts.finds_none place hany).1
      · obtain ⟨m, hm, hname, hown, hother⟩ := parts.finds_call q place hany
        by_cases howns : m.className = owner
        · cases hrun.symm.trans (hown howns).2
        · cases hrun.symm.trans (hother howns).1
          obtain ⟨before, delegates⟩ := hends.found_iff.mp (congrArg Prod.fst hany)
          exact ⟨owner, before, m, rfl, delegates, hm, hname, howns⟩
    · rintro ⟨owner', before, m, ⟨⟩, delegates, hm, -, hother⟩
      have hany := Edit.runOn_eq_of_fst cursor (hends.found_iff.mpr ⟨before, delegates⟩)
      obtain ⟨m', hm', -, -, hfinds⟩ := parts.finds_call p _ hany
      cases hm.symm.trans hm'
      exact ⟨_, (hfinds hother).1⟩

/-- A search leaves the body as it is. -/
theorem Cursor.code_skipConstructor (pool : ConstantPool) (target : ConstructorTarget)
    (cursor : Cursor) : ((skipConstructor pool target).runOn cursor).2.code = cursor.code := by
  cases target with
  | any => rfl
  | superclass | this =>
    unfold skipConstructor
    cases pool.ownerName <;> rfl

namespace Method

variable {pool mid next last : ConstantPool} {m m' m₁ m₂ : Method} {code : Code} {p : Nat}
  {superclass a b : String}

/-! ## Calls of super constructors -/

/-- The call of a super constructor in the body of a constructor. -/
structure CallsSuper (m : Method) (pool : ConstantPool) (code : Code) (p : Nat) : Prop where
  /-- The method is a constructor. -/
  constructor : m.isConstructor pool = .ok true
  /-- It has a body. -/
  body : m.code? = some code
  /-- The search finds the call. -/
  found : ∃ after,
    (Cursor.skipConstructor pool .superclass).runOn (.ofCode code) = (.ok (some p), after)

/-- Why there is no call of a super constructor in a method. -/
inductive NoSuperCall (m : Method) (pool : ConstantPool) : Prop where
  /-- The method is no constructor. -/
  | ordinary (h : m.isConstructor pool = .ok false)
  /-- It has no body. -/
  | abstract (h : m.code? = none)
  /-- The search finds none. -/
  | notFound {code : Code} (body : m.code? = some code)
      (h : ∃ after, (Cursor.skipConstructor pool .superclass).runOn (.ofCode code) =
        (.ok none, after))

/-- What the direct call at a position of a method refers to. -/
def callee? (m : Method) (pool : ConstantPool) (p : Nat) : Option MemberRef :=
  m.code?.bind fun code => Bytecode.callee? code.bytes pool p

/-- The call of a super constructor is led to another class: the two bytes of its operand
may have changed and nothing else in the method, and the operand refers to a method of
this class, with the index of name and descriptor that it had. -/
structure LedTo (superclass : String) (pool next : ConstantPool) (m m' : Method) (code : Code)
    (p : Nat) : Prop where
  /-- The pool has grown. -/
  grows : pool.Grows next
  /-- It is the call of a super constructor. -/
  calls : m.CallsSuper pool code p
  /-- Only its operand may have changed. -/
  rest : ∃ bytes, Bytecode.SameButOperand code.bytes bytes p ∧ m' = m.withCode { code with bytes }
  /-- It refers to a method of the class. -/
  callee : ∃ member owner, m.callee? pool p = some member ∧ member.kind = .method ∧
    m'.callee? next p =
      some { member with classIndex := owner, className := superclass }

/-- A method has the call of a super constructor or not. -/
theorem CallsSuper.not_noSuperCall (calls : m.CallsSuper pool code p) : ¬ m.NoSuperCall pool := by
  obtain ⟨hconstructor, hbody, after, hfound⟩ := calls
  rintro (h | h | ⟨body, after', h⟩)
  · cases hconstructor.symm.trans h
  · cases hbody.symm.trans h
  · cases hbody.symm.trans body
    cases hfound.symm.trans h

/-- There is one such call. -/
theorem CallsSuper.unique {code' : Code} {p' : Nat} (calls : m.CallsSuper pool code p)
    (calls' : m.CallsSuper pool code' p') : code' = code ∧ p' = p := by
  obtain ⟨-, hbody, after, hfound⟩ := calls
  obtain ⟨-, hbody', after', hfound'⟩ := calls'
  cases hbody.symm.trans hbody'
  cases hfound.symm.trans hfound'
  exact ⟨rfl, rfl⟩

/-- The bodies of a method and of its changed one. -/
theorem LedTo.body (led : LedTo superclass pool next m m' code p) :
    ∃ bytes, Bytecode.SameButOperand code.bytes bytes p ∧ m' = m.withCode { code with bytes } ∧
      m'.code? = some { code with bytes } := by
  obtain ⟨bytes, same, rfl⟩ := led.rest
  exact ⟨bytes, same, rfl, code?_withCode _ led.calls.body⟩

/-- The call is still found after it was led to another class than the method's own. -/
theorem LedTo.calls_again (led : LedTo superclass pool next m m' code p)
    (hother : pool.ownerName ≠ .ok superclass) :
    ∃ bytes, Bytecode.SameButOperand code.bytes bytes p ∧
      m'.CallsSuper next { code with bytes } p := by
  obtain ⟨bytes, same, rfl, hbody⟩ := led.body
  obtain ⟨member, i, hcallee, -, hcallee'⟩ := led.callee
  unfold callee? at hcallee hcallee'
  rw [led.calls.body] at hcallee
  rw [hbody] at hcallee'
  obtain ⟨owner, before, found, howner, delegates, hfound, hname, -⟩ :=
    Cursor.found_superclass_iff.mp led.calls.found
  cases hcallee.symm.trans hfound
  refine ⟨bytes, same, ?_, hbody, Cursor.found_superclass_iff.mpr
    ⟨owner, before, _, led.grows.ownerName howner, ?_, hcallee', hname, ?_⟩⟩
  · obtain ⟨name, htext, hname⟩ := bind_eq_ok_iff.mp led.calls.constructor
    exact bind_eq_ok_iff.mpr ⟨name, led.grows.text htext, hname⟩
  · exact same.delegates led.grows delegates hcallee' hname
  · rintro rfl
    exact hother howner

/-- A call that is led to one class and then to another one is led to the later one. -/
theorem LedTo.trans {led : Code} (first : LedTo a pool mid m m₁ code p)
    (second : LedTo b mid next m₁ m₂ led p) : LedTo b pool next m m₂ code p := by
  obtain ⟨bytes, same, rfl, hbody⟩ := first.body
  cases hbody.symm.trans second.calls.body
  obtain ⟨bytes', same', rfl⟩ := second.rest
  obtain ⟨member, i, hcallee, hkind, hmid⟩ := first.callee
  obtain ⟨member', i', hmid', -, hcallee'⟩ := second.callee
  cases hmid.symm.trans hmid'
  exact ⟨first.grows.trans second.grows, first.calls,
    ⟨bytes', same.trans same', withCode_withCode ..⟩, member, i', hcallee, hkind, hcallee'⟩

/-! ## Setting the superclass -/

/-- The indices in the entry of a member are those of the member. -/
theorem parts_of_member {i c n : UInt16} {kind k : MemberKind} {member : MemberRef}
    (h : pool.member i = .ok member) (hindices : pool.memberIndices (some kind) i = .ok (k, c, n)) :
    member.kind = kind ∧ member.nameAndTypeIndex = n ∧ pool.nameOf n = .ok member.name ∧
      pool.descriptorOf n = .ok member.descriptor := by
  obtain ⟨entry, hentry, hindices⟩ := bind_eq_ok_iff.mp hindices
  obtain ⟨found, hfound, h⟩ := bind_eq_ok_iff.mp h
  obtain ⟨entry', hentry', hfound⟩ := bind_eq_ok_iff.mp hfound
  cases hentry.symm.trans hentry'
  obtain ⟨className, -, h⟩ := bind_eq_ok_iff.mp h
  obtain ⟨name, hname, h⟩ := bind_eq_ok_iff.mp h
  obtain ⟨descriptor, hdescriptor, h⟩ := bind_eq_ok_iff.mp h
  cases h
  cases entry with
  | member k c n =>
    cases hfound
    simp only at hindices
    split at hindices
    · next hkind =>
      cases hindices
      exact ⟨(of_decide_eq_true hkind).symm, rfl, hname, hdescriptor⟩
    · cases hindices
  | _ => cases hindices

/-- The call of a super constructor gets the index of a method of the new superclass. -/
theorem led_of_interned {old c nameAndType owner new : UInt16} {kind : MemberKind}
    (hpool : pool.Consistent) (calls : m.CallsSuper pool code p)
    (hold : Bytecode.u16At? code.bytes (p + 1) = some old)
    (hindices : pool.memberIndices (some .method) old = .ok (kind, c, nameAndType))
    (howner : (ConstantPool.internClass superclass).runOn pool = (.ok owner, mid))
    (hnew : (ConstantPool.intern (.member .method owner nameAndType)).runOn mid = (.ok new, next))
    (hroom : p + 1 + 2 ≤ code.bytes.size) :
    LedTo superclass pool next m (m.withCode { code with
      bytes := Bytecode.overwrite code.bytes (p + 1) (Codec.bytesOfU16 new) }) code p := by
  have hgrows := (ConstantPool.onlyAdds_internSymbol ..).grows_of_eq howner
  have hlater := (ConstantPool.onlyAdds_intern _).grows_of_eq hnew
  obtain ⟨-, -, member, -, -, hcallee, -⟩ := Cursor.found_superclass_iff.mp calls.found
  obtain ⟨hop, i, hi, hmember⟩ := Bytecode.callee?_eq_some_iff.mp hcallee
  cases hold.symm.trans hi
  obtain ⟨hkind, hpair, hname, hdescriptor⟩ := parts_of_member hmember hindices
  have hclass : mid.className owner = .ok superclass :=
    ConstantPool.symbol_of_internSymbol hpool howner
  have hshown := ConstantPool.member_of_memberOf <|
    ConstantPool.memberOf_of_intern (hgrows.consistent hpool) hclass (hgrows.nameOf hname)
      (hgrows.descriptorOf hdescriptor) hnew
  refine ⟨hgrows.trans hlater, calls,
    ⟨_, Bytecode.sameButOperand_overwrite code.bytes p new, rfl⟩, member, owner, ?_, hkind, ?_⟩
  · unfold callee?
    rw [calls.body]
    exact hcallee
  · unfold callee?
    rw [code?_withCode _ calls.body]
    refine Bytecode.callee?_eq_some_iff.mpr ⟨?_, new, Bytecode.u16At?_overwrite hroom new, ?_⟩
    · rw [(Bytecode.sameButOperand_overwrite code.bytes p new).bytes p (.inl (by omega))]
      exact hop
    · rw [hkind, hpair]
      exact hshown

/-- Setting the superclass changes nothing if there is no call of a super constructor, and
else leads this call to the new superclass. -/
theorem withSuperclass_cases (hpool : pool.Consistent)
    (h : (m.withSuperclass superclass).runOn pool = (.ok m', next)) :
    m.NoSuperCall pool ∧ m' = m ∧ next = pool ∨
      ∃ code p, LedTo superclass pool next m m' code p := by
  obtain ⟨_, _, ⟨⟩, h⟩ := (Edit.runOn_bind_eq_ok_iff _).mp h
  obtain ⟨isConstructor, hconstructor, h⟩ := (Edit.runOn_lift_bind_eq_ok_iff _).mp h
  cases isConstructor with
  | false =>
    cases h
    exact .inl ⟨.ordinary hconstructor, rfl, rfl⟩
  | true =>
    rw [if_neg (by decide)] at h
    split at h
    · next hbody =>
      cases h
      exact .inl ⟨.abstract hbody, rfl, rfl⟩
    next code hbody =>
    split at h
    · cases h
    · next after hfound =>
      cases h
      exact .inl ⟨.notFound hbody ⟨_, hfound⟩, rfl, rfl⟩
    · next p after hfound =>
      obtain ⟨old, hold, h⟩ := (Edit.runOn_lift_bind_eq_ok_iff _).mp h
      obtain ⟨⟨kind, c, nameAndType⟩, hindices, h⟩ := (Edit.runOn_lift_bind_eq_ok_iff _).mp h
      obtain ⟨owner, mid, howner, h⟩ := (Edit.runOn_bind_eq_ok_iff _).mp h
      obtain ⟨new, next', hnew, h⟩ := (Edit.runOn_bind_eq_ok_iff _).mp h
      obtain ⟨written, hwritten, h⟩ := (Edit.runOn_lift_bind_eq_ok_iff _).mp h
      cases h
      obtain ⟨hroom, rfl⟩ := Code.write_eq_ok_iff.mp hwritten
      have hcode := Cursor.code_skipConstructor pool .superclass (.ofCode code)
      rw [hfound] at hcode
      have hold := Cursor.require_eq_ok_iff.mp hold
      rw [hcode] at hold
      exact .inr ⟨code, p, led_of_interned hpool ⟨hconstructor, hbody, _, hfound⟩ hold hindices
        howner hnew hroom⟩

/-- Lead the call of a super constructor to another class, one step after the other. The
body is edited in its place. -/
def leadSuperCall (superclass : String) : Edit (ConstantPool × Cursor) Unit := do
  let (pool, _) ← get
  match ← Edit.onSecond (Cursor.skipConstructor pool .superclass) with
  | none => pure ()
  | some position =>
    let (_, cursor) ← get
    let old ← cursor.u16At (position + 1)
    let (_, _, nameAndType) ← pool.memberIndices (some .method) old
    let owner ← Edit.onFirst (ConstantPool.internClass superclass)
    let new ← Edit.onFirst (ConstantPool.intern (.member .method owner nameAndType))
    Edit.onSecond (Cursor.writeU16 (position + 1) new)

/-- Edit the body of a method in its place. What the edit makes of the body stays, even if it
fails. -/
def onBody (code : Code) (edit : Edit (ConstantPool × Cursor) Unit) :
    Edit (ConstantPool × Method) Unit := ExceptT.mk fun (pool, m) =>
  let (outcome, pool, cursor) := edit.runOn (pool, .ofCode code)
  (outcome, pool, m.withCode cursor.code)

/-- Set the superclass in a method that is changed in its place. -/
def setSuperclassInSteps (superclass : String) : Edit (ConstantPool × Method) Unit := do
  let (pool, m) ← get
  if !(← (m.isConstructor pool : Except Error Bool)) then return
  match m.code? with
  | none => pure ()
  | some code => onBody code (leadSuperCall superclass)

/-- The body is what the edit leaves. -/
theorem runOn_onBody (code : Code) (edit : Edit (ConstantPool × Cursor) Unit)
    (pool : ConstantPool) (m : Method) :
    (onBody code edit).runOn (pool, m) =
      ((edit.runOn (pool, .ofCode code)).1, (edit.runOn (pool, .ofCode code)).2.1,
        m.withCode (edit.runOn (pool, .ofCode code)).2.2.code) := rfl

/-- The steps leave the method that setting the superclass gives, or the method as it was. -/
theorem runOn_setSuperclassInSteps (superclass : String) (pool : ConstantPool) (m : Method) :
    (setSuperclassInSteps superclass).runOn (pool, m) =
      match (m.withSuperclass superclass).runOn pool with
      | (.ok m', next) => (.ok (), next, m')
      | (.error e, next) => (.error e, next, m) := by
  unfold setSuperclassInSteps withSuperclass
  simp only [Edit.runOn_bind, Edit.runOn_get, Edit.runOn_lift]
  rcases m.isConstructor pool with e | _ | _
  · rfl
  · rfl
  cases hbody : m.code? with
  | none => rfl
  | some code =>
    have hsame := withCode_of_code? hbody
    have hcode := Cursor.code_skipConstructor pool .superclass (.ofCode code)
    simp only [Bool.not_true, Bool.false_eq_true, if_false, runOn_onBody, leadSuperCall,
      Edit.runOn_bind, Edit.runOn_get, Edit.runOn_onSecond]
    generalize hsearch : (Cursor.skipConstructor pool .superclass).runOn (.ofCode code) = search
      at hcode ⊢
    obtain ⟨found, ⟨code', place⟩⟩ := search
    obtain rfl : code' = code := hcode
    rcases found with e | _ | p
    · exact congrArg (fun m => (Except.error e, pool, m)) hsame
    · exact congrArg (fun m => (Except.ok (), pool, m)) hsame
    · -- up to the write the body stays as it is, and a write that fails leaves it so
      simp only [Edit.runOn_bind, Edit.runOn_get, Edit.runOn_lift]
      rcases Cursor.u16At ⟨code', place⟩ (p + 1) with e | old
      · simp only [hsame]
      rcases hindices : pool.memberIndices (some .method) old with e | ⟨kind, c, nameAndType⟩
      · simp only [hindices, hsame]
      rcases howner : (ConstantPool.internClass superclass).runOn pool with ⟨e | owner, mid⟩
      · simp only [hindices, Edit.runOn_onFirst, howner, hsame]
      rcases hnew : (ConstantPool.intern (.member .method owner nameAndType)).runOn mid with
        ⟨e | new, next⟩
      · simp only [hindices, Edit.runOn_onFirst, howner, hnew, hsame]
      simp only [hindices, Edit.runOn_onFirst, howner, hnew, Edit.runOn_onSecond, Cursor.writeU16,
        Cursor.write, Cursor.runOn_onCode]
      rcases code'.write (p + 1) (Codec.bytesOfU16 new) with e | written
      · simp only [hsame]
      · simp only [Edit.runOn_pure]

/-- Setting the superclass of a method changes nothing if it is no constructor, has no body
or no call of a super constructor. Else only the operand of the call changes, so that it
refers to a method of the new superclass with the same name and descriptor; if this fails,
the method stays as it was. Of two superclasses that are set one after the other, the first
not the class itself, the later one is left. -/
theorem withSuperclass_leads {wasRead : Bool} {pool : ConstantPool}
    (hpool : ConstantPool.Reachable wasRead pool) (m : Method) :
    (∀ superclass m' next, (m.withSuperclass superclass).runOn pool = (.ok m', next) →
      m.NoSuperCall pool ∧ m' = m ∧ next = pool ∨
        ∃ code p, LedTo superclass pool next m m' code p) ∧
    (∀ superclass, (setSuperclassInSteps superclass).AllOrNothing Prod.snd ∧
      (setSuperclassInSteps superclass).runOn (pool, m) =
        match (m.withSuperclass superclass).runOn pool with
        | (.ok m', next) => (.ok (), next, m')
        | (.error e, next) => (.error e, next, m)) ∧
    ∀ a b m₁ m₂ m₃ pool₁ pool₂ pool₃, pool.ownerName ≠ .ok a →
      (m.withSuperclass a).runOn pool = (.ok m₁, pool₁) →
      (m₁.withSuperclass b).runOn pool₁ = (.ok m₂, pool₂) →
      (m.withSuperclass b).runOn pool = (.ok m₃, pool₃) →
      m.NoSuperCall pool ∧ m₂ = m ∧ m₃ = m ∧ pool₂ = pool ∧ pool₃ = pool ∨
        ∃ code p, LedTo b pool pool₂ m m₂ code p ∧ LedTo b pool pool₃ m m₃ code p ∧
          ∃ late atOnce, m₂.callee? pool₂ p = some late ∧ m₃.callee? pool₃ p = some atOnce ∧
            late.names = atOnce.names := by
  have hconsistent := hpool.consistent
  refine ⟨fun superclass m' next h => withSuperclass_cases hconsistent h,
    fun superclass => ⟨?_, runOn_setSuperclassInSteps superclass pool m⟩, ?_⟩
  · rintro ⟨pool, m⟩ e ⟨next, m'⟩ h
    rw [runOn_setSuperclassInSteps] at h
    rcases hrun : (m.withSuperclass superclass).runOn pool with ⟨e' | m'', next'⟩
    · rw [hrun] at h
      cases h
      rfl
    · rw [hrun] at h
      cases h
  · intro a b m₁ m₂ m₃ pool₁ pool₂ pool₃ hother h₁ h₂ h₃
    obtain ⟨none, rfl, rfl⟩ | ⟨code, p, first⟩ := withSuperclass_cases hconsistent h₁
    · -- there is no call either time
      obtain ⟨-, rfl, rfl⟩ | ⟨_, _, led⟩ := withSuperclass_cases hconsistent h₂
      · obtain ⟨-, rfl, rfl⟩ | ⟨_, _, led⟩ := withSuperclass_cases hconsistent h₃
        · exact .inl ⟨none, rfl, rfl, rfl, rfl⟩
        · exact absurd none led.calls.not_noSuperCall
      · exact absurd none led.calls.not_noSuperCall
    · obtain ⟨bytes, -, again⟩ := first.calls_again hother
      obtain ⟨none, -⟩ | ⟨_, _, second⟩ :=
        withSuperclass_cases (first.grows.consistent hconsistent) h₂
      · exact absurd none again.not_noSuperCall
      obtain ⟨none, -⟩ | ⟨_, _, direct⟩ := withSuperclass_cases hconsistent h₃
      · exact absurd none first.calls.not_noSuperCall
      -- every search finds the same call
      obtain ⟨rfl, rfl⟩ := again.unique second.calls
      obtain ⟨rfl, rfl⟩ := first.calls.unique direct.calls
      have later := first.trans second
      obtain ⟨member, i, hmember, -, hlate⟩ := later.callee
      obtain ⟨member', j, hmember', -, hatOnce⟩ := direct.callee
      cases hmember.symm.trans hmember'
      exact .inr ⟨_, _, later, direct, _, _, hlate, hatOnce, rfl⟩

/-- If the pool has a method of the new superclass already, it stays as it is, and the call
gets the first index of the method. -/
theorem runOn_withSuperclass_of_isFirst {text owner new old c nameAndType : UInt16}
    {after : Cursor} (hpool : pool.Consistent)
    (hconstructor : m.isConstructor pool = .ok true) (hbody : m.code? = some code)
    (hfound : (Cursor.skipConstructor pool .superclass).runOn (.ofCode code) =
      (.ok (some p), after))
    (hold : after.u16At (p + 1) = .ok old)
    (hindices : pool.memberIndices (some .method) old = .ok (.method, c, nameAndType))
    (htext : ConstantPool.IsFirst pool.slots (.text superclass) text.toNat)
    (howner : ConstantPool.IsFirst pool.slots (.symbol .classInfo text) owner.toNat)
    (hnew : ConstantPool.IsFirst pool.slots (.member .method owner nameAndType) new.toNat)
    (hroom : p + 3 ≤ code.bytes.size) :
    (m.withSuperclass superclass).runOn pool = (.ok (m.withCode { code with
      bytes := Bytecode.overwrite code.bytes (p + 1) (Codec.bytesOfU16 new) }), pool) := by
  have hclass : (ConstantPool.internClass superclass).runOn pool = (.ok owner, pool) :=
    (Edit.runOn_bind_eq_ok_iff _).mpr ⟨text, pool, ConstantPool.runOn_intern_of_isFirst hpool htext,
      ConstantPool.runOn_intern_of_isFirst hpool howner⟩
  have hmember := ConstantPool.runOn_intern_of_isFirst hpool hnew
  have hwritten := Code.write_eq_ok_iff.mpr ⟨show p + 1 + (Codec.bytesOfU16 new).length ≤ _ by
    rw [Codec.length_bytesOfU16]; omega, rfl⟩
  unfold withSuperclass
  simp only [Edit.runOn_bind, Edit.runOn_get, Edit.runOn_lift, hconstructor, hbody, hfound,
    Bool.not_true, Bool.false_eq_true, if_false, hold, hindices, hclass, hmember, hwritten,
    Edit.runOn_pure]

/-- The bytes of the pool of a class `A`, with the constructors of the classes `B`, `C` and
`D`. -/
def inheritingBytes : List UInt8 :=
  [0, 15,
    1, 0, 1, 0x41, 7, 0, 1, 1, 0, 1, 0x42, 7, 0, 3, 1, 0, 1, 0x43, 7, 0, 5, 1, 0, 1, 0x44, 7, 0, 7,
    1, 0, 6, 0x3c, 0x69, 0x6e, 0x69, 0x74, 0x3e, 1, 0, 3, 0x28, 0x29, 0x56, 12, 0, 9, 0, 10,
    10, 0, 4, 0, 11, 10, 0, 6, 0, 11, 10, 0, 8, 0, 11]

/-- The pool as it is read. -/
def inheritingRead : ConstantPool :=
  ((ConstantPool.decode 0 inheritingBytes).toOption.map Prod.fst).getD (.empty 0)

/-- The pool of the class. -/
def inheritingPool : ConstantPool := { inheritingRead with thisClass := 2 }

/-- A body that creates an object of the class `B` before it calls the constructor at an
index of the pool. -/
def inheritingBody (i : UInt8) : Code :=
  { maxStack := 3
    maxLocals := 1
    bytes := #[0x2a, 0xbb, 0, 4, 0x59, 0xb7, 0, 12, 0x57, 0xb7, 0, i, 0xb1]
    handlers := []
    attributes := [] }

/-- The constructor with this body. -/
def inheriting (i : UInt8) : Method :=
  { flags := .none
    nameIndex := 9
    descriptorIndex := 10
    attributes := some [⟨1, .code (inheritingBody i)⟩] }

/-- From the class `B` to `C` and then to `D`, or at once to `D`: the object that is created
stays one of the class `B`. -/
theorem withSuperclass_leads_twice :
    ConstantPool.Reachable true inheritingPool ∧ inheritingPool.ownerName = .ok "A" ∧
      ((inheriting 12).withSuperclass "C").runOn inheritingPool =
        (.ok (inheriting 13), inheritingPool) ∧
      ((inheriting 13).withSuperclass "D").runOn inheritingPool =
        (.ok (inheriting 14), inheritingPool) ∧
      ((inheriting 12).withSuperclass "D").runOn inheritingPool =
        (.ok (inheriting 14), inheritingPool) ∧
      ∃ code p, LedTo "D" inheritingPool inheritingPool (inheriting 12) (inheriting 14) code p := by
  have hdecode : ConstantPool.decode 0 inheritingBytes = .ok (inheritingRead, []) := rfl
  have hreachable : ConstantPool.Reachable true inheritingPool := .owned (.decode hdecode) 2
  have hother : inheritingPool.ownerName = .ok "A" := by decide +kernel
  have hplaces : ConstantPool.IsFirst inheritingPool.slots (.text "C") (5 : UInt16).toNat ∧
      ConstantPool.IsFirst inheritingPool.slots (.symbol .classInfo 5) (6 : UInt16).toNat ∧
      ConstantPool.IsFirst inheritingPool.slots (.member .method 6 11) (13 : UInt16).toNat ∧
      ConstantPool.IsFirst inheritingPool.slots (.text "D") (7 : UInt16).toNat ∧
      ConstantPool.IsFirst inheritingPool.slots (.symbol .classInfo 7) (8 : UInt16).toNat ∧
      ConstantPool.IsFirst inheritingPool.slots (.member .method 8 11) (14 : UInt16).toNat := by
    unfold ConstantPool.IsFirst
    decide +kernel
  obtain ⟨htextC, hownerC, hnewC, htextD, hownerD, hnewD⟩ := hplaces
  have hcall : ∀ i : UInt8, i = 12 ∨ i = 13 →
      (inheriting i).isConstructor inheritingPool = .ok true ∧
      Bytecode.restrict (inheritingBody i).bytes inheritingPool (some "A") .superclass
          (Bytecode.searchConstructor (inheritingBody i).bytes inheritingPool none .any 0 0) =
        (.ok (some 9), 12) ∧
      ∃ c, inheritingPool.memberIndices (some .method) (UInt16.ofNat i.toNat) =
        .ok (.method, c, 11) := by
    rintro i (rfl | rfl)
    · exact ⟨by decide +kernel, by decide +kernel, 4, by decide +kernel⟩
    · exact ⟨by decide +kernel, by decide +kernel, 6, by decide +kernel⟩
  have hset : ∀ {i j : UInt8} {superclass : String} {text owner new : UInt16}, i = 12 ∨ i = 13 →
      ConstantPool.IsFirst inheritingPool.slots (.text superclass) text.toNat →
      ConstantPool.IsFirst inheritingPool.slots (.symbol .classInfo text) owner.toNat →
      ConstantPool.IsFirst inheritingPool.slots (.member .method owner 11) new.toNat →
      (inheriting i).withCode { inheritingBody i with
        bytes := Bytecode.overwrite (inheritingBody i).bytes 10 (Codec.bytesOfU16 new) } =
          inheriting j →
      ((inheriting i).withSuperclass superclass).runOn inheritingPool =
        (.ok (inheriting j), inheritingPool) := by
    intro i j superclass text owner new hi htext howner hnew hwritten
    obtain ⟨hconstructor, hsearch, c, hindices⟩ := hcall i hi
    have hfound : (Cursor.skipConstructor inheritingPool .superclass).runOn
        (.ofCode (inheritingBody i)) = (.ok (some 9), ⟨inheritingBody i, 12⟩) := by
      rw [Cursor.runOn_skipConstructor hother (by decide)]
      exact congrArg (fun found : Except Error (Option Nat) × Nat =>
        (found.1, (⟨inheritingBody i, found.2⟩ : Cursor))) hsearch
    rw [← hwritten]
    exact runOn_withSuperclass_of_isFirst hreachable.consistent hconstructor rfl hfound
      (by rcases hi with rfl | rfl <;> rfl) hindices htext howner hnew (by decide : 9 + 3 ≤ 13)
  have hfirst := hset (j := 13) (.inl rfl) htextC hownerC hnewC (by decide +kernel)
  have hsecond := hset (j := 14) (.inr rfl) htextD hownerD hnewD (by decide +kernel)
  have hatOnce := hset (j := 14) (.inl rfl) htextD hownerD hnewD (by decide +kernel)
  obtain ⟨-, -, hleads⟩ := withSuperclass_leads hreachable (inheriting 12)
  obtain ⟨-, hsame, -⟩ | ⟨code, p, led, -⟩ :=
    hleads _ _ _ _ _ _ _ _ (by rw [hother]; decide) hfirst hsecond hatOnce
  · exact absurd hsame (by decide +kernel)
  · exact ⟨hreachable, hother, hfirst, hsecond, hatOnce, code, p, led⟩

end Method

end JvmClass
