import JvmClass.Code.Constructor
import JvmClass.Proofs.Code.Cursor
import JvmClass.Proofs.Instruction.Shape
import JvmClass.Proofs.Instruction.Walk

/-!
# Which constructor call is found

A call of a constructor belongs to an object that was created before, as long as
there is one left. The search for the delegating call counts the created objects
that no constructor was called for. So it finds the first call of a constructor that
brings the number of these calls above the number of created objects, and nothing if
all calls have their objects. The searches for one kind of constructor end where the
general search ends, and only decide whether its result is accepted.
-/

namespace JvmClass.Bytecode

/-! ## Creations and calls -/

section Calls

variable (code : Bytecode) (pool : ConstantPool)

/-- Whether the instruction at a position creates an object. -/
def creates (p : Nat) : Bool := code[p]? == some Opcode.new

/-- The member that the instruction at a position calls, if it is a direct call
whose operand refers to a member. -/
def callee? (p : Nat) : Option MemberRef :=
  if code[p]? = some Opcode.invokeSpecial then
    (code.u16At? (p + 1)).bind fun i => (pool.member i).toOption
  else none

/-- Whether the instruction at a position calls a constructor. -/
def callsConstructor (p : Nat) : Bool :=
  (code.callee? pool p).any fun m => m.name == constructorName

/-- The number of objects that some instructions create. -/
def created (starts : List Nat) : Nat := starts.countP code.creates

/-- The number of constructors that some instructions call. -/
def constructed (starts : List Nat) : Nat := starts.countP (code.callsConstructor pool)

/-- If there is a direct call at a position, its operand refers to a member. -/
def Resolves (p : Nat) : Prop :=
  code[p]? = some Opcode.invokeSpecial → ∃ m, code.callee? pool p = some m

/-- Among instructions in order, all direct calls refer to members, and no call of a
constructor brings the number of these calls above the number of objects created
before it. -/
structure Accounted (starts : List Nat) : Prop where
  /-- The direct calls refer to members. -/
  resolves : ∀ q ∈ starts, code.Resolves pool q
  /-- Every call of a constructor has an object. -/
  matched : ∀ earlier q later, starts = earlier ++ q :: later → code.callsConstructor pool q →
    ¬ code.created earlier < code.constructed pool (earlier ++ [q])

/-- Instructions from the start of the code lead to the first call of a constructor
that no created object is left for. -/
structure Delegates (before : List Nat) (p : Nat) : Prop where
  /-- The instructions before the call are complete. -/
  walk : Walk code 0 before p
  /-- The call is a complete instruction. -/
  complete : ∃ length, code.instructionLength p = .ok length
  /-- All direct calls before it refer to members, and all calls of constructors
  before it have their objects. -/
  accounted : code.Accounted pool before
  /-- It calls a constructor. -/
  calls : code.callsConstructor pool p
  /-- With it, more constructors are called than objects were created. -/
  outnumbers : code.created before < code.constructed pool (before ++ [p])

end Calls

section Counting

variable {code : Bytecode} {pool : ConstantPool} {before : List Nat} {p : Nat}

/-- One more instruction creates an object or not. -/
theorem created_concat (code : Bytecode) (before : List Nat) (p : Nat) :
    code.created (before ++ [p]) = code.created before + if code.creates p then 1 else 0 := by
  unfold created
  rw [List.countP_append, List.countP_singleton]

/-- One more instruction calls a constructor or not. -/
theorem constructed_concat (code : Bytecode) (pool : ConstantPool) (before : List Nat) (p : Nat) :
    code.constructed pool (before ++ [p]) =
      code.constructed pool before + if code.callsConstructor pool p then 1 else 0 := by
  unfold constructed
  rw [List.countP_append, List.countP_singleton]

/-- There is nothing to account for without instructions. -/
theorem Accounted.nil (code : Bytecode) (pool : ConstantPool) : code.Accounted pool [] :=
  ⟨fun _ hq => absurd hq List.not_mem_nil, fun earlier q later h => by
    cases List.append_ne_nil_of_right_ne_nil earlier (List.cons_ne_nil q later) h.symm⟩

/-- A creation is told by its opcode. -/
theorem creates_iff : code.creates p = true ↔ code[p]? = some Opcode.new := beq_iff_eq

/-- A call of a constructor refers to a member. -/
theorem resolves_of_callsConstructor (h : code.callsConstructor pool p = true) :
    code.Resolves pool p := by
  intro _
  cases hcallee : code.callee? pool p with
  | none =>
    unfold callsConstructor at h
    rw [hcallee] at h
    cases h
  | some m => exact ⟨m, rfl⟩

/-- A direct call creates no object. -/
theorem not_creates_of_invokeSpecial (hop : code[p]? = some Opcode.invokeSpecial) :
    code.creates p = false := by
  unfold creates
  rw [hop]
  rfl

/-- A call of a constructor is a direct call, and creates no object. -/
theorem not_creates_of_callsConstructor (h : code.callsConstructor pool p = true) :
    code.creates p = false := by
  by_cases hop : code[p]? = some Opcode.invokeSpecial
  · exact not_creates_of_invokeSpecial hop
  · unfold callsConstructor callee? at h
    rw [if_neg hop] at h
    cases h

/-- One more instruction is accounted for if it is resolved and does not lead above
the number of objects. -/
theorem Accounted.concat (accounted : code.Accounted pool before) (hp : code.Resolves pool p)
    (hmatched : code.callsConstructor pool p →
      ¬ code.created before < code.constructed pool (before ++ [p])) :
    code.Accounted pool (before ++ [p]) := by
  refine ⟨fun q hq => ?_, fun earlier q later hsplit hcalls => ?_⟩
  · rcases List.mem_append.mp hq with hq | hq
    · exact accounted.resolves q hq
    · cases List.mem_singleton.mp hq
      exact hp
  · rcases List.eq_nil_or_concat later with rfl | ⟨later, last, rfl⟩
    · obtain ⟨rfl, hlast⟩ := List.append_inj' hsplit rfl
      cases hlast
      exact hmatched hcalls
    · have hsplit : before ++ [p] = (earlier ++ q :: later) ++ [last] := by
        rw [hsplit]
        simp
      exact accounted.matched earlier q later (List.append_inj' hsplit rfl).1 hcalls

/-- One more instruction is accounted for if no more constructors are called than
objects were created behind it. -/
theorem Accounted.pass {left : Nat} (accounted : code.Accounted pool before)
    (hp : code.Resolves pool p)
    (hleft : code.created (before ++ [p]) = code.constructed pool (before ++ [p]) + left) :
    code.Accounted pool (before ++ [p]) := by
  refine accounted.concat hp fun hcalls => ?_
  have hcreated := created_concat code before p
  rw [not_creates_of_callsConstructor hcalls, if_neg Bool.false_ne_true] at hcreated
  omega

end Counting

/-! ## Where two walks from one position lead -/

/-- A walk that begins within the code ends there. -/
theorem Walk.last_le_size {code : Bytecode} {first last : Nat} {starts : List Nat}
    (walk : Walk code first starts last) (h : first ≤ code.size) : last ≤ code.size := by
  induction walk with
  | stop => exact h
  | step hl _ ih => exact ih (add_instructionLength_le hl)

/-- Of two walks from one position, one goes on where the other ends. -/
theorem Walk.isPrefix_or_isPrefix {code : Bytecode} {first last last' : Nat}
    {starts starts' : List Nat} (walk : Walk code first starts last)
    (walk' : Walk code first starts' last') : starts <+: starts' ∨ starts' <+: starts := by
  induction walk generalizing starts' with
  | stop => exact .inl List.nil_prefix
  | step hl _ ih =>
    cases walk' with
    | stop => exact .inr List.nil_prefix
    | step hl' rest' =>
      cases hl.symm.trans hl'
      exact (ih rest').imp (List.prefix_cons_inj _).mpr (List.prefix_cons_inj _).mpr

section Search

variable {code : Bytecode} {pool : ConstantPool} {before starts : List Nat} {p q : Nat}

/-- Instructions that are accounted for do not go on behind the call that is looked
for. -/
theorem Delegates.isPrefix (delegates : code.Delegates pool before p)
    (walk : Walk code 0 starts q) (accounted : code.Accounted pool starts) :
    starts <+: before := by
  rcases walk.isPrefix_or_isPrefix delegates.walk with hprefix | ⟨later, rfl⟩
  · exact hprefix
  · cases later with
    | nil => exact (List.append_nil before).symm ▸ List.prefix_rfl
    | cons r later =>
      -- the walk passes the call, for which it cannot account
      have hrest := delegates.walk.append_iff.mp walk
      cases hrest.first_eq
      exact absurd delegates.outnumbers
        (accounted.matched before p later rfl delegates.calls)

/-- There is only one call to be found. -/
theorem Delegates.unique (delegates : code.Delegates pool before p)
    (delegates' : code.Delegates pool starts q) : p = q := by
  have hle := delegates.isPrefix delegates'.walk delegates'.accounted
  have hge := delegates'.isPrefix delegates.walk delegates.accounted
  cases hle.eq_of_length_le hge.length_le
  exact delegates.walk.last_unique delegates'.walk

/-- Up to the call that is looked for, instructions that are accounted for lead to a
complete instruction that is resolved. -/
theorem Delegates.goes_on (delegates : code.Delegates pool before p)
    (walk : Walk code 0 starts q) (accounted : code.Accounted pool starts) :
    (∃ length, code.instructionLength q = .ok length) ∧ code.Resolves pool q := by
  obtain ⟨rest, rfl⟩ := delegates.isPrefix walk accounted
  have hrest := walk.append_iff.mp delegates.walk
  cases rest with
  | nil =>
    cases hrest.last_unique (.stop q)
    exact ⟨delegates.complete, resolves_of_callsConstructor delegates.calls⟩
  | cons r rest =>
    cases hrest.first_eq
    exact ⟨hrest.exists_length List.mem_cons_self,
      delegates.accounted.resolves q (List.mem_append_right _ List.mem_cons_self)⟩

/-- How a search ends, and where. -/
inductive Ends (code : Bytecode) (pool : ConstantPool) :
    Except Error (Option Nat) → Nat → Prop where
  /-- The call is found, and the search ends behind it. -/
  | found {before : List Nat} {p length : Nat} (delegates : code.Delegates pool before p)
      (hl : code.instructionLength p = .ok length) : Ends code pool (.ok (some p)) (p + length)
  /-- All instructions are accounted for, and the search goes back to the start. -/
  | exhausted {starts : List Nat} (walk : Walk code 0 starts code.size)
      (accounted : code.Accounted pool starts) : Ends code pool (.ok none) 0
  /-- An instruction is not complete. -/
  | incomplete {starts : List Nat} {q : Nat} {e : Error} (walk : Walk code 0 starts q)
      (accounted : code.Accounted pool starts) (hl : code.instructionLength q = .error e) :
      Ends code pool (.error e) q
  /-- A direct call does not refer to a member. -/
  | unresolved {starts : List Nat} {q length : Nat} {e : Error} (walk : Walk code 0 starts q)
      (accounted : code.Accounted pool starts) (hl : code.instructionLength q = .ok length)
      (hq : ¬ code.Resolves pool q) : Ends code pool (.error e) (q + length)

/-- The operand of a direct call lies within the code. -/
theorem exists_u16At?_of_invokeSpecial {length : Nat} (hop : code[p]? = some Opcode.invokeSpecial)
    (hl : code.instructionLength p = .ok length) : ∃ i, code.u16At? (p + 1) = some i := by
  obtain ⟨op, hop', hclaimed⟩ := (instructionLength_eq_ok_iff.mp hl).1.claimedLength
  cases hop.symm.trans hop'
  cases hclaimed
  have hroom : p + 3 ≤ code.size := add_instructionLength_le hl
  exact exists_u16At? hroom

/-- The member that a direct call refers to is the one at its operand. -/
theorem callee?_of_invokeSpecial {length : Nat} (hop : code[p]? = some Opcode.invokeSpecial)
    (hl : code.instructionLength p = .ok length) :
    code.callee? pool p = (pool.member ((code.u16At? (p + 1)).getD 0)).toOption := by
  obtain ⟨i, hi⟩ := exists_u16At?_of_invokeSpecial hop hl
  unfold callee?
  rw [if_pos hop, hi]
  rfl

/-- A direct call whose operand refers to a member calls a constructor exactly if this is
the name of the member. -/
theorem callsConstructor_of_member {length : Nat} {m : MemberRef}
    (hop : code[p]? = some Opcode.invokeSpecial) (hl : code.instructionLength p = .ok length)
    (hmember : pool.member ((code.u16At? (p + 1)).getD 0) = .ok m) :
    code.Resolves pool p ∧ code.callsConstructor pool p = decide (m.name = constructorName) := by
  have hcallee : code.callee? pool p = _ := callee?_of_invokeSpecial hop hl
  rw [hmember] at hcallee
  refine ⟨fun _ => ⟨m, hcallee⟩, ?_⟩
  unfold callsConstructor
  rw [hcallee]
  rfl

/-- An instruction that is no direct call calls no constructor, and there is nothing to
be resolved. -/
theorem callsConstructor_of_ne (hop : code[p]? ≠ some Opcode.invokeSpecial) :
    code.callsConstructor pool p = false ∧ code.Resolves pool p := by
  refine ⟨?_, fun h => absurd h hop⟩
  unfold callsConstructor callee?
  rw [if_neg hop]
  rfl

/-- A search ends where the rest of it does: behind an instruction that leaves no more
constructors called than objects created. -/
theorem Ends.of_pass {length left : Nat} {found : Except Error (Option Nat) × Nat}
    (walk : Walk code 0 before p) (accounted : code.Accounted pool before)
    (hl : code.instructionLength p = .ok length) (hp : code.Resolves pool p)
    (hleft : code.created (before ++ [p]) = code.constructed pool (before ++ [p]) + left)
    (later : ∀ {passed : List Nat},
      Walk code 0 passed (p + length) → code.Accounted pool passed →
      code.created passed = code.constructed pool passed + left →
      Ends code pool found.1 found.2) :
    Ends code pool found.1 found.2 :=
  later (walk.trans (.step hl (.stop _))) (accounted.pass hp hleft) hleft

/-- The search goes on from instructions that are accounted for, with the objects that
no constructor was called for yet. -/
theorem ends_searchConstructor (owner? : Option String) {position left : Nat}
    (walk : Walk code 0 before position) (accounted : code.Accounted pool before)
    (hleft : code.created before = code.constructed pool before + left) :
    Ends code pool (code.searchConstructor pool owner? .any position left).1
      (code.searchConstructor pool owner? .any position left).2 := by
  fun_induction searchConstructor code pool owner? .any position left generalizing before with
  | case1 position left hlt e hl => exact .incomplete walk accounted hl
  | case2 position left hlt length hl hnew ih =>
    have hop : code[position]? = some Opcode.new := by rw [Array.getElem?_eq_getElem hlt, hnew]
    have hne : code[position]? ≠ some Opcode.invokeSpecial := by rw [hop]; decide
    obtain ⟨hcalls, hresolves⟩ : code.callsConstructor pool position = false ∧
      code.Resolves pool position := callsConstructor_of_ne hne
    refine .of_pass walk accounted hl hresolves ?_ ih
    rw [created_concat, constructed_concat, creates_iff.mpr hop, hcalls, hleft]
    rfl
  | case3 position left hlt length hl hnew hspecial e hmember =>
    have hop : code[position]? = some Opcode.invokeSpecial := by
      rw [Array.getElem?_eq_getElem hlt, hspecial]
    refine .unresolved walk accounted hl fun hresolves => ?_
    obtain ⟨m, hcallee⟩ := hresolves hop
    rw [callee?_of_invokeSpecial hop hl, hmember] at hcallee
    cases hcallee
  | case4 position left hlt length hl hnew hspecial m hmember hname ih =>
    have hop : code[position]? = some Opcode.invokeSpecial := by
      rw [Array.getElem?_eq_getElem hlt, hspecial]
    obtain ⟨hresolves, hcalls⟩ := callsConstructor_of_member hop hl hmember
    have hother : code.callsConstructor pool position = false :=
      hcalls.trans (decide_eq_false hname)
    refine .of_pass walk accounted hl hresolves ?_ ih
    rw [created_concat, constructed_concat, not_creates_of_invokeSpecial hop, hother, hleft]
    rfl
  | case5 position hlt length hl hnew hspecial m hmember hname left ih =>
    have hop : code[position]? = some Opcode.invokeSpecial := by
      rw [Array.getElem?_eq_getElem hlt, hspecial]
    obtain ⟨hresolves, hcalls⟩ := callsConstructor_of_member hop hl hmember
    have hconstructor : code.callsConstructor pool position = true :=
      hcalls.trans (decide_eq_true (not_not.mp hname))
    refine .of_pass walk accounted hl hresolves ?_ ih
    rw [created_concat, constructed_concat, not_creates_of_invokeSpecial hop, hconstructor, hleft,
      if_neg Bool.false_ne_true, if_pos rfl]
    omega
  | case6 position hlt length hl hnew hspecial m hmember hname haccepts =>
    have hop : code[position]? = some Opcode.invokeSpecial := by
      rw [Array.getElem?_eq_getElem hlt, hspecial]
    obtain ⟨hresolves, hcalls⟩ := callsConstructor_of_member hop hl hmember
    have hconstructor : code.callsConstructor pool position = true :=
      hcalls.trans (decide_eq_true (not_not.mp hname))
    refine .found ⟨walk, ⟨length, hl⟩, accounted, hconstructor, ?_⟩ hl
    rw [constructed_concat, hconstructor, hleft]
    exact Nat.lt_succ_self _
  | case7 position hlt length hl hnew hspecial m hmember hname hnot => exact absurd rfl hnot
  | case8 position left hlt length hl hnew hspecial ih =>
    have hop : code[position]? = some code[position] := Array.getElem?_eq_getElem hlt
    have hne : code[position]? ≠ some Opcode.invokeSpecial := by
      rw [hop]
      exact fun h => hspecial (Option.some.inj h)
    have hcreates : code.creates position = false := by
      refine Bool.eq_false_iff.mpr fun h => hnew ?_
      exact Option.some.inj (hop.symm.trans (creates_iff.mp h))
    obtain ⟨hcalls, hresolves⟩ : code.callsConstructor pool position = false ∧
      code.Resolves pool position := callsConstructor_of_ne hne
    refine .of_pass walk accounted hl hresolves ?_ ih
    rw [created_concat, constructed_concat, hcreates, hcalls, hleft]
    rfl
  | case9 position left hge =>
    have hle := walk.last_le_size (Nat.zero_le _)
    have hend : position = code.size := by omega
    exact .exhausted (hend ▸ walk) accounted

/-- A search that finds a call has found the one that is looked for, and a search that
finds none, or fails, has none to find. -/
theorem Ends.found_iff {outcome : Except Error (Option Nat)} {place : Nat}
    (ends : Ends code pool outcome place) :
    outcome = .ok (some p) ↔ ∃ before, code.Delegates pool before p := by
  constructor
  · rintro rfl
    cases ends with
    | found delegates => exact ⟨_, delegates⟩
  · rintro ⟨before, delegates⟩
    cases ends with
    | found delegates' => rw [delegates'.unique delegates]
    | exhausted walk accounted =>
      obtain ⟨⟨length, hl⟩, -⟩ := delegates.goes_on walk accounted
      have hone := one_le_instructionLength hl
      have hle := add_instructionLength_le hl
      omega
    | incomplete walk accounted hl =>
      obtain ⟨⟨length, hl'⟩, -⟩ := delegates.goes_on walk accounted
      cases hl.symm.trans hl'
    | unresolved walk accounted hl hq => exact absurd (delegates.goes_on walk accounted).2 hq

/-- A search decides by the next instruction how it goes on. -/
theorem searchConstructor_eq (owner? : Option String) (target : ConstructorTarget)
    (position left : Nat) :
    code.searchConstructor pool owner? target position left =
      if position < code.size then
        match code.instructionLength position with
        | .error e => (.error e, position)
        | .ok length =>
          if code[position]? = some Opcode.new then
            code.searchConstructor pool owner? target (position + length) (left + 1)
          else if code[position]? = some Opcode.invokeSpecial then
            match pool.member ((code.u16At? (position + 1)).getD 0) with
            | .error e => (.error e, position + length)
            | .ok m =>
              if m.name ≠ constructorName then
                code.searchConstructor pool owner? target (position + length) left
              else
                match left with
                | left + 1 => code.searchConstructor pool owner? target (position + length) left
                | 0 =>
                  if target.accepts owner? m.className then (.ok (some position), position + length)
                  else (.ok none, 0)
          else code.searchConstructor pool owner? target (position + length) left
      else (.ok none, 0) := by
  rw [searchConstructor]
  split
  · next hlt =>
    rw [Array.getElem?_eq_getElem hlt]
    simp only [Option.some.injEq]
    split
    · next e hl => simp only [hl]
    · next length hl => exact hl ▸ rfl
  · rfl

/-- What a search for one kind of constructor makes of the result of the general one. -/
def restrict (code : Bytecode) (pool : ConstantPool) (owner? : Option String)
    (target : ConstructorTarget) :
    Except Error (Option Nat) × Nat → Except Error (Option Nat) × Nat
  | (.ok (some p), place) =>
    if (code.callee? pool p).any fun m => target.accepts owner? m.className then
      (.ok (some p), place)
    else (.ok none, 0)
  | found => found

/-- The general search finds the call of a constructor that no object is left for. -/
theorem search_any_of_call {position length : Nat} {m : MemberRef} (hlt : position < code.size)
    (hl : code.instructionLength position = .ok length)
    (hspecial : code[position] = Opcode.invokeSpecial)
    (hmember : pool.member ((code.u16At? (position + 1)).getD 0) = .ok m)
    (hname : m.name = constructorName) :
    code.searchConstructor pool none .any position 0 = (.ok (some position), position + length) ∧
      code.callee? pool position = some m := by
  have hop : code[position]? = some Opcode.invokeSpecial := by
    rw [Array.getElem?_eq_getElem hlt, hspecial]
  constructor
  · rw [searchConstructor_eq, if_pos hlt, hl, hop]
    simp only [Option.some.injEq, if_true, hmember]
    rw [if_neg (not_not.mpr hname)]
    rfl
  · rw [callee?_of_invokeSpecial hop hl, hmember]
    rfl

/-- A call that is found is kept if its constructor is accepted. -/
theorem restrict_of_callee {m : MemberRef} (hm : code.callee? pool p = some m)
    (owner? : Option String) (target : ConstructorTarget) (place : Nat) :
    code.restrict pool owner? target (.ok (some p), place) =
      if target.accepts owner? m.className then (.ok (some p), place) else (.ok none, 0) := by
  simp only [restrict]
  rw [hm, Option.any_some]

/-- A search for one kind of constructor ends where the general search does, and decides
whether the call is one of its kind. -/
theorem searchConstructor_eq_restrict (owner? : Option String) (target : ConstructorTarget)
    (position left : Nat) :
    code.searchConstructor pool owner? target position left =
      code.restrict pool owner? target (code.searchConstructor pool none .any position left) := by
  fun_induction searchConstructor code pool owner? target position left with
  | case1 position left hlt e hl =>
    rw [searchConstructor_eq, if_pos hlt, hl]
    rfl
  | case2 position left hlt length hl hnew ih =>
    rw [searchConstructor_eq none, if_pos hlt, hl, Array.getElem?_eq_getElem hlt]
    simp only [hnew, if_true]
    exact ih
  | case3 position left hlt length hl hnew hspecial e hmember =>
    rw [searchConstructor_eq, if_pos hlt, hl, Array.getElem?_eq_getElem hlt]
    simp only [Option.some.injEq, hspecial, if_true, hmember]
    rfl
  | case4 position left hlt length hl hnew hspecial m hmember hname ih =>
    rw [searchConstructor_eq none, if_pos hlt, hl, Array.getElem?_eq_getElem hlt]
    simp only [Option.some.injEq, hspecial, if_true, hmember]
    rw [if_pos hname]
    exact ih
  | case5 position hlt length hl hnew hspecial m hmember hname left ih =>
    rw [searchConstructor_eq none, if_pos hlt, hl, Array.getElem?_eq_getElem hlt]
    simp only [Option.some.injEq, hspecial, if_true, hmember]
    rw [if_neg hname]
    exact ih
  | case6 position hlt length hl hnew hspecial m hmember hname haccepts =>
    have hfound := search_any_of_call hlt hl hspecial hmember (not_not.mp hname)
    rw [hfound.1, restrict_of_callee hfound.2, if_pos haccepts]
  | case7 position hlt length hl hnew hspecial m hmember hname hrefuses =>
    have hfound := search_any_of_call hlt hl hspecial hmember (not_not.mp hname)
    rw [hfound.1, restrict_of_callee hfound.2, if_neg hrefuses]
  | case8 position left hlt length hl hnew hspecial ih =>
    rw [searchConstructor_eq none, if_pos hlt, hl, Array.getElem?_eq_getElem hlt]
    simp only [Option.some.injEq, hnew, hspecial, if_false]
    exact ih
  | case9 position left hge =>
    rw [searchConstructor_eq, if_neg hge]
    rfl

end Search

end JvmClass.Bytecode

namespace JvmClass.Cursor

open Bytecode

/-! ## Searches through a cursor -/

/-- The cursor at the start of its body. -/
def atStart (cursor : Cursor) : Cursor := { cursor with position := 0 }

/-- The searches for constructors of another class and of the class itself share the
result of the general search. -/
structure Partitioned (pool : ConstantPool) (owner : String) (cursor : Cursor) : Prop where
  /-- The search for a constructor of another class fails as the general one does. -/
  superclass_fails : ∀ e after,
    (skipConstructor pool .superclass).runOn cursor = (.error e, after) ↔
      (skipConstructor pool .any).runOn cursor = (.error e, after)
  /-- The search for a constructor of the class itself fails as the general one does. -/
  this_fails : ∀ e after, (skipConstructor pool .this).runOn cursor = (.error e, after) ↔
    (skipConstructor pool .any).runOn cursor = (.error e, after)
  /-- If there is no call, both find none. -/
  finds_none : ∀ after, (skipConstructor pool .any).runOn cursor = (.ok none, after) →
    (skipConstructor pool .superclass).runOn cursor = (.ok none, after) ∧
      (skipConstructor pool .this).runOn cursor = (.ok none, after)
  /-- If there is a call, the class of its constructor decides which of them finds it, and
  the other finds none. -/
  finds_call : ∀ p after, (skipConstructor pool .any).runOn cursor = (.ok (some p), after) →
    ∃ m, Bytecode.callee? cursor.code.bytes pool p = some m ∧ m.name = constructorName ∧
      (m.className = owner → (skipConstructor pool .this).runOn cursor = (.ok (some p), after) ∧
        (skipConstructor pool .superclass).runOn cursor = (.ok none, cursor.atStart)) ∧
      (m.className ≠ owner →
        (skipConstructor pool .superclass).runOn cursor = (.ok (some p), after) ∧
          (skipConstructor pool .this).runOn cursor = (.ok none, cursor.atStart))

section Search

variable {pool : ConstantPool} {cursor after : Cursor} {p : Nat}

/-- The general search needs no owner, and leaves the cursor where it ends. -/
theorem runOn_skipConstructor_any (pool : ConstantPool) (cursor : Cursor) :
    (skipConstructor pool .any).runOn cursor =
      let found := Bytecode.searchConstructor cursor.code.bytes pool none .any 0 0
      (found.1, { cursor with position := found.2 }) := rfl

/-- A search for one kind of constructor restricts the general one. -/
theorem runOn_skipConstructor {owner : String} (howner : pool.ownerName = .ok owner)
    {target : ConstructorTarget} (htarget : target ≠ .any) :
    (skipConstructor pool target).runOn cursor =
      let found := Bytecode.restrict cursor.code.bytes pool (some owner) target
        (Bytecode.searchConstructor cursor.code.bytes pool none .any 0 0)
      (found.1, { cursor with position := found.2 }) := by
  rw [← searchConstructor_eq_restrict]
  unfold skipConstructor
  cases target with
  | any => exact absurd rfl htarget
  | superclass | this =>
    rw [howner]
    rfl

/-- The general search ends in one of four ways. -/
theorem ends_skipConstructor (pool : ConstantPool) (cursor : Cursor) :
    Ends cursor.code.bytes pool ((skipConstructor pool .any).runOn cursor).1
      ((skipConstructor pool .any).runOn cursor).2.position :=
  ends_searchConstructor none (.stop 0) (.nil _ _) rfl

/-- A call of a constructor is one of a member with that name. -/
theorem exists_callee_of_callsConstructor {code : Bytecode}
    (h : code.callsConstructor pool p = true) :
    ∃ m, code.callee? pool p = some m ∧ m.name = constructorName := by
  unfold callsConstructor at h
  cases hcallee : code.callee? pool p with
  | none =>
    rw [hcallee] at h
    cases h
  | some m =>
    rw [hcallee] at h
    exact ⟨m, rfl, of_decide_eq_true h⟩

/-- Each of the searches for one kind of constructor keeps or drops what the general one
finds. -/
theorem partitioned {owner : String} (howner : pool.ownerName = .ok owner) (cursor : Cursor) :
    Partitioned pool owner cursor := by
  have hends := ends_skipConstructor pool cursor
  have hany := runOn_skipConstructor_any pool cursor
  have hsuper : (skipConstructor pool .superclass).runOn cursor = _ :=
    runOn_skipConstructor howner (by decide)
  have hthis : (skipConstructor pool .this).runOn cursor = _ :=
    runOn_skipConstructor howner (by decide)
  rcases hfound : Bytecode.searchConstructor cursor.code.bytes pool none .any 0 0 with
    ⟨e | _ | p, place⟩ <;> rw [hfound] at hany hsuper hthis <;> rw [hany] at hends
  · -- a failure is no call, so it is kept
    refine ⟨fun e after => by rw [hsuper, hany]; rfl, fun e after => by rw [hthis, hany]; rfl,
      fun after h => ?_, fun p after h => ?_⟩
    · cases hany.symm.trans h
    · cases hany.symm.trans h
  · refine ⟨fun e after => by rw [hsuper, hany]; rfl, fun e after => by rw [hthis, hany]; rfl,
      fun after h => ?_, fun p after h => ?_⟩
    · rw [← h, hany]
      exact ⟨hsuper, hthis⟩
    · cases hany.symm.trans h
  · obtain ⟨delegates⟩ | _ := hends
    obtain ⟨m, hm, hname⟩ := exists_callee_of_callsConstructor delegates.calls
    rw [restrict_of_callee hm] at hsuper hthis
    -- the class of the constructor is the owner or not, and this settles both searches
    by_cases howns : m.className = owner
    · have hkeeps : ConstructorTarget.this.accepts (some owner) m.className = true :=
        decide_eq_true (congrArg some howns.symm)
      have hdrops : ¬ ConstructorTarget.superclass.accepts (some owner) m.className = true :=
        fun h => of_decide_eq_true h (congrArg some howns.symm)
      rw [if_neg hdrops] at hsuper
      rw [if_pos hkeeps] at hthis
      refine ⟨fun e after => ?_, fun e after => by rw [hthis, hany], fun after h => ?_,
        fun p' after h => ?_⟩
      · rw [hsuper, hany]
        exact iff_of_false (fun h => by cases h) fun h => by cases h
      · cases hany.symm.trans h
      · cases hany.symm.trans h
        exact ⟨m, hm, hname, fun _ => ⟨hthis, hsuper⟩, fun hne => absurd howns hne⟩
    · have hkeeps : ConstructorTarget.superclass.accepts (some owner) m.className = true :=
        decide_eq_true fun h => howns (Option.some.inj h).symm
      have hdrops : ¬ ConstructorTarget.this.accepts (some owner) m.className = true :=
        fun h => howns (Option.some.inj (of_decide_eq_true h)).symm
      rw [if_pos hkeeps] at hsuper
      rw [if_neg hdrops] at hthis
      refine ⟨fun e after => by rw [hsuper, hany], fun e after => ?_, fun after h => ?_,
        fun p' after h => ?_⟩
      · rw [hthis, hany]
        exact iff_of_false (fun h => by cases h) fun h => by cases h
      · cases hany.symm.trans h
      · cases hany.symm.trans h
        exact ⟨m, hm, hname, fun heq => absurd heq howns, fun _ => ⟨hsuper, hthis⟩⟩

end Search

/-- **The general search finds the call that no created object is left for.** The position
of a call is found exactly if the instructions from the start up to it are complete, their
direct calls refer to members, and it is the first call of a constructor that brings the
number of these calls above the number of objects created before it. The cursor is behind
the call then, and at the start if there is none. Of the two searches for one kind of
constructor, both fail or find nothing as the general search does, and exactly one finds
the call that it finds. -/
theorem skipConstructor_finds (pool : ConstantPool) (cursor : Cursor) :
    (∀ p, (∃ after, (skipConstructor pool .any).runOn cursor = (.ok (some p), after)) ↔
        ∃ before, Bytecode.Delegates cursor.code.bytes pool before p) ∧
      (∀ p after, (skipConstructor pool .any).runOn cursor = (.ok (some p), after) →
        ∃ length, Bytecode.instructionLength cursor.code.bytes p = .ok length ∧
          after = { cursor with position := p + length }) ∧
      (∀ after, (skipConstructor pool .any).runOn cursor = (.ok none, after) →
        after = cursor.atStart) ∧
      ∀ owner, pool.ownerName = .ok owner → Partitioned pool owner cursor := by
  have hends := ends_skipConstructor pool cursor
  have hany := runOn_skipConstructor_any pool cursor
  refine ⟨fun p => ?_, fun p after h => ?_, fun after h => ?_, fun owner howner =>
    partitioned howner cursor⟩
  · rw [← hends.found_iff]
    constructor
    · rintro ⟨after, h⟩
      rw [h]
    · exact fun h => ⟨_, Edit.runOn_eq_of_fst cursor h⟩
  · have hcode := congrArg (fun run : Except Error (Option Nat) × Cursor => run.2.code) hany
    rw [h] at hends hcode
    generalize hplace : after.position = place at hends
    obtain ⟨-, hl⟩ | _ := hends
    refine ⟨_, hl, ?_⟩
    obtain ⟨code, position⟩ := after
    cases hplace
    cases hcode
    rfl
  · have hcode := congrArg (fun run : Except Error (Option Nat) × Cursor => run.2.code) hany
    rw [h] at hends hcode
    generalize hplace : after.position = place at hends
    cases hends
    obtain ⟨code, position⟩ := after
    cases hplace
    cases hcode
    rfl

/-- The bytes of the pool of a class `A`, with the constructors of the classes `B` and
`A`. -/
def delegatingBytes : List UInt8 :=
  [0, 10,
    1, 0, 1, 0x41, 7, 0, 1, 1, 0, 1, 0x42, 7, 0, 3,
    1, 0, 6, 0x3c, 0x69, 0x6e, 0x69, 0x74, 0x3e, 1, 0, 3, 0x28, 0x29, 0x56, 12, 0, 5, 0, 6,
    10, 0, 4, 0, 7, 10, 0, 2, 0, 7]

/-- The pool of these bytes. -/
def delegatingPool : ConstantPool :=
  { ((ConstantPool.decode 0 delegatingBytes).toOption.map Prod.fst).getD (.empty 0) with
    thisClass := 2 }

/-- A body that creates an object of the class `B` before it calls another constructor of
the class `A`. -/
def delegatingBody : Code :=
  { maxStack := 3
    maxLocals := 1
    bytes := #[0x2a, 0xbb, 0, 4, 0x59, 0xb7, 0, 8, 0x57, 0xb7, 0, 9, 0xb1]
    handlers := []
    attributes := [] }

/-- The call of the constructor of `B` belongs to the object that is created. The other
call is the delegating one, and is found by the search for constructors of the class
itself. -/
theorem skipConstructor_finds_ownConstructor :
    delegatingPool.ownerName = .ok "A" ∧
      (∃ before, Bytecode.Delegates delegatingBody.bytes delegatingPool before 9) ∧
      (skipConstructor delegatingPool .this).runOn (.ofCode delegatingBody) =
        (.ok (some 9), ⟨delegatingBody, 12⟩) ∧
      (skipConstructor delegatingPool .superclass).runOn (.ofCode delegatingBody) =
        (.ok none, ⟨delegatingBody, 0⟩) := by
  have howner : delegatingPool.ownerName = .ok "A" := by decide +kernel
  have hsearch : Bytecode.searchConstructor delegatingBody.bytes delegatingPool none .any 0 0 =
      (.ok (some 9), 12) := by decide +kernel
  have hcallee : Bytecode.callee? delegatingBody.bytes delegatingPool 9 =
      some ⟨.method, 2, 7, "A", "<init>", "()V"⟩ := by decide +kernel
  have hrun : (skipConstructor delegatingPool .any).runOn (.ofCode delegatingBody) =
      (.ok (some 9), ⟨delegatingBody, 12⟩) := by
    have hany := runOn_skipConstructor_any delegatingPool (.ofCode delegatingBody)
    have hcode : (Cursor.ofCode delegatingBody).code.bytes = delegatingBody.bytes := rfl
    rwa [hcode, hsearch] at hany
  obtain ⟨hfound, -, -, hparts⟩ := skipConstructor_finds delegatingPool (.ofCode delegatingBody)
  obtain ⟨m, hm, -, hown, -⟩ := (hparts "A" howner).finds_call 9 _ hrun
  cases hm.symm.trans hcallee
  exact ⟨howner, (hfound 9).mp ⟨_, hrun⟩, hown rfl⟩

end JvmClass.Cursor
