import JvmClass.ConstantPool.Loadable
import JvmClass.Proofs.ConstantPool.Interning

/-!
# Indices that stay valid

Code operands, attributes and whatever else refers to a pool keep indices for as
long as the pool lives, while more and more entries are asked for. Requests for
compound entries may fail halfway, when the pool is full or a copied entry is
broken, and what they stored before stays. No such history changes what an index
means: whatever a view has shown before, it shows after it.
-/

namespace JvmClass.ConstantPool

/-! ## Views as questions -/

/-- A question about a pool, with the type of its answer. -/
inductive Query : Type → Type where
  /-- The entry at an index. -/
  | entry (i : UInt16) : Query Constant
  /-- A text. -/
  | text (i : UInt16) : Query String
  /-- A 32-bit integer. -/
  | integer (i : UInt16) : Query Int32
  /-- The bits of a single precision number. -/
  | float (i : UInt16) : Query UInt32
  /-- A 64-bit integer. -/
  | long (i : UInt16) : Query Int64
  /-- The bits of a double precision number. -/
  | double (i : UInt16) : Query UInt64
  /-- The index of the text that a symbol entry names. -/
  | symbolText (kind : SymbolKind) (i : UInt16) : Query UInt16
  /-- The text that a symbol entry names. -/
  | symbol (kind : SymbolKind) (i : UInt16) : Query String
  /-- The indices of a name and its descriptor. -/
  | nameAndType (i : UInt16) : Query (UInt16 × UInt16)
  /-- The name in a name with descriptor. -/
  | nameOf (i : UInt16) : Query String
  /-- The descriptor in a name with descriptor. -/
  | descriptorOf (i : UInt16) : Query String
  /-- The indices in a member entry. -/
  | memberIndices (kind? : Option MemberKind) (i : UInt16) : Query (MemberKind × UInt16 × UInt16)
  /-- A member with its names. -/
  | memberOf (kind? : Option MemberKind) (i : UInt16) : Query MemberRef
  /-- The kind of a method handle. -/
  | handleKind (i : UInt16) : Query HandleKind
  /-- The index of the member that a method handle refers to. -/
  | handleReference (i : UInt16) : Query UInt16
  /-- The place of a bootstrap method, and the index of a name with descriptor. -/
  | dynamic (kind : DynamicKind) (i : UInt16) : Query (UInt16 × UInt16)
  /-- The name of a dynamic entry. -/
  | dynamicName (kind : DynamicKind) (i : UInt16) : Query String
  /-- The descriptor of a dynamic entry. -/
  | dynamicDescriptor (kind : DynamicKind) (i : UInt16) : Query String
  /-- The name of the owner of the pool. -/
  | ownerName : Query String
  /-- A method handle with the names of its member. -/
  | resolveHandle (i : UInt16) : Query MethodHandle
  /-- A constant that a bootstrap method may receive. -/
  | loadable (i : UInt16) : Query LoadableConstant

/-- The answer of a pool to a question. -/
def Query.ask {α : Type} : Query α → ConstantPool → Except Error α
  | .entry i, pool => pool.entry i
  | .text i, pool => pool.text i
  | .integer i, pool => pool.integer i
  | .float i, pool => pool.float i
  | .long i, pool => pool.long i
  | .double i, pool => pool.double i
  | .symbolText kind i, pool => pool.symbolText kind i
  | .symbol kind i, pool => pool.symbol kind i
  | .nameAndType i, pool => pool.nameAndType i
  | .nameOf i, pool => pool.nameOf i
  | .descriptorOf i, pool => pool.descriptorOf i
  | .memberIndices kind? i, pool => pool.memberIndices kind? i
  | .memberOf kind? i, pool => pool.memberOf kind? i
  | .handleKind i, pool => pool.handleKind i
  | .handleReference i, pool => pool.handleReference i
  | .dynamic kind i, pool => pool.dynamic kind i
  | .dynamicName kind i, pool => pool.dynamicName kind i
  | .dynamicDescriptor kind i, pool => pool.dynamicDescriptor kind i
  | .ownerName, pool => pool.ownerName
  | .resolveHandle i, pool => pool.resolveHandle i
  | .loadable i, pool => pool.loadable i

namespace Grows

variable {old pool : ConstantPool} {i : UInt16}

/-- The kind of a method handle stays the same. -/
theorem handleKind (grows : Grows old pool) {kind : HandleKind}
    (h : old.handleKind i = .ok kind) : pool.handleKind i = .ok kind := by
  obtain ⟨handle, hhandle, h⟩ := bind_eq_ok_iff.mp h
  exact bind_eq_ok_iff.mpr ⟨handle, grows.expect hhandle, h⟩

/-- The member that a method handle refers to stays the same. -/
theorem handleReference (grows : Grows old pool) {reference : UInt16}
    (h : old.handleReference i = .ok reference) : pool.handleReference i = .ok reference := by
  obtain ⟨handle, hhandle, h⟩ := bind_eq_ok_iff.mp h
  exact bind_eq_ok_iff.mpr ⟨handle, grows.expect hhandle, h⟩

/-- The name of a dynamic entry stays the same. -/
theorem dynamicName (grows : Grows old pool) {kind : DynamicKind} {s : String}
    (h : old.dynamicName kind i = .ok s) : pool.dynamicName kind i = .ok s := by
  obtain ⟨found, hfound, hname⟩ := bind_eq_ok_iff.mp h
  exact bind_eq_ok_iff.mpr ⟨found, grows.expect hfound, grows.nameOf hname⟩

/-- The descriptor of a dynamic entry stays the same. -/
theorem dynamicDescriptor (grows : Grows old pool) {kind : DynamicKind} {s : String}
    (h : old.dynamicDescriptor kind i = .ok s) : pool.dynamicDescriptor kind i = .ok s := by
  obtain ⟨found, hfound, hdescriptor⟩ := bind_eq_ok_iff.mp h
  exact bind_eq_ok_iff.mpr ⟨found, grows.expect hfound, grows.descriptorOf hdescriptor⟩

/-- The owner of the pool keeps its name. -/
theorem ownerName (grows : Grows old pool) {s : String} (h : old.ownerName = .ok s) :
    pool.ownerName = .ok s := by
  have hshown := grows.symbol h
  rwa [← grows.id_eq.2] at hshown

/-- A method handle stays the same with the names of its member. -/
theorem resolveHandle (grows : Grows old pool) {handle : MethodHandle}
    (h : old.resolveHandle i = .ok handle) : pool.resolveHandle i = .ok handle := by
  obtain ⟨kind, hkind, h⟩ := bind_eq_ok_iff.mp h
  obtain ⟨reference, hreference, h⟩ := bind_eq_ok_iff.mp h
  obtain ⟨m, hmember, h⟩ := bind_eq_ok_iff.mp h
  refine bind_eq_ok_iff.mpr ⟨kind, grows.handleKind hkind, ?_⟩
  refine bind_eq_ok_iff.mpr ⟨reference, grows.handleReference hreference, ?_⟩
  exact bind_eq_ok_iff.mpr ⟨m, grows.memberOf hmember, h⟩

/-- A loadable constant stays the same with all that it refers to. -/
theorem loadable (grows : Grows old pool) {constant : LoadableConstant}
    (h : old.loadable i = .ok constant) : pool.loadable i = .ok constant := by
  have hmapped : ∀ {α : Type} {before after : Except Error α} {f : α → LoadableConstant},
      (∀ a, before = .ok a → after = .ok a) → f <$> before = .ok constant →
        f <$> after = .ok constant := by
    intro α before after f hkept hbefore
    cases before with
    | error e => cases hbefore
    | ok a =>
      rw [hkept a rfl]
      exact hbefore
  obtain ⟨c, hentry, h⟩ := bind_eq_ok_iff.mp h
  refine bind_eq_ok_iff.mpr ⟨c, grows.entry hentry, ?_⟩
  cases c with
  | symbol kind t =>
    cases kind with
    | string | classInfo | methodType => exact hmapped (fun _ htext => grows.text htext) h
    | moduleInfo | packageInfo => cases h
  | methodHandle kind reference => exact hmapped (fun _ hhandle => grows.resolveHandle hhandle) h
  | dynamic kind bootstrap n =>
    cases kind with
    | callSite => cases h
    | constant =>
      obtain ⟨name, hname, h⟩ := bind_eq_ok_iff.mp h
      obtain ⟨descriptor, hdescriptor, h⟩ := bind_eq_ok_iff.mp h
      refine bind_eq_ok_iff.mpr ⟨name, grows.dynamicName hname, ?_⟩
      exact bind_eq_ok_iff.mpr ⟨descriptor, grows.dynamicDescriptor hdescriptor, h⟩
  | integer | long | float | double => exact h
  | text | nameAndType | member => cases h

/-- Every question that was answered before has the same answer. -/
theorem ask (grows : Grows old pool) {α : Type} {query : Query α} {answer : α}
    (h : query.ask old = .ok answer) : query.ask pool = .ok answer := by
  cases query with
  | entry i => exact grows.entry h
  | text i => exact grows.text h
  | integer i | float i | long i | double i => exact grows.expect h
  | symbolText kind i => exact grows.expect h
  | symbol kind i => exact grows.symbol h
  | nameAndType i => exact grows.expect h
  | nameOf i => exact grows.nameOf h
  | descriptorOf i => exact grows.descriptorOf h
  | memberIndices kind? i => exact grows.memberIndices h
  | memberOf kind? i => exact grows.memberOf h
  | handleKind i => exact grows.handleKind h
  | handleReference i => exact grows.handleReference h
  | dynamic kind i => exact grows.expect h
  | dynamicName kind i => exact grows.dynamicName h
  | dynamicDescriptor kind i => exact grows.dynamicDescriptor h
  | ownerName => exact grows.ownerName h
  | resolveHandle i => exact grows.resolveHandle h
  | loadable i => exact grows.loadable h

end Grows

/-! ## Histories -/

/-- A pool after some requests, one after the other. Those that fail leave what
they have stored, and the next one goes on from there. -/
def after (pool : ConstantPool) (history : List Addition) : ConstantPool :=
  history.foldl (fun pool addition => (addition.index.runOn pool).2) pool

/-- A pool grows over a history. -/
theorem grows_after (pool : ConstantPool) (history : List Addition) :
    Grows pool (pool.after history) := by
  induction history generalizing pool with
  | nil => exact .refl
  | cons addition history ih => exact (addition.onlyAdds.grows pool).trans (ih _)

/-- A pool that can be made leads to another one over a history. -/
theorem Reachable.after {wasRead : Bool} {pool : ConstantPool} (h : Reachable wasRead pool)
    (history : List Addition) : Reachable wasRead (pool.after history) := by
  induction history generalizing pool with
  | nil => exact h
  | cons addition history ih => exact ih (h.added addition)

/-! ## Exact interning -/

section Intern

variable {pool : ConstantPool} {c : Constant}

/-- Every place of an entry in a pool is an index. -/
theorem Consistent.exists_index (hpool : Consistent pool) {place : Nat}
    (h : pool.slots[place]? = some (some c)) :
    ∃ i : UInt16, i.toNat = place ∧ pool.entry i = .ok c := by
  have hlt : place < pool.slots.size := (Array.getElem?_eq_some_iff.mp h).1
  have hle : pool.slots.size ≤ 65535 := hpool.size_le
  have hnumber : (UInt16.ofNat place).toNat = place := by
    rw [UInt16.toNat_ofNat']
    omega
  exact ⟨UInt16.ofNat place, hnumber, entry_eq_ok_iff.mpr (by rw [hnumber, h])⟩

/-- An entry that is stored is interned at its smallest index, and nothing
changes. -/
theorem Consistent.intern_of_stored (hpool : Consistent pool) {j : UInt16}
    (hj : pool.entry j = .ok c) :
    ∃ i, pool.entry i = .ok c ∧ (∀ k, pool.entry k = .ok c → i ≤ k) ∧
      (intern c).runOn pool = (.ok i, pool) := by
  obtain ⟨place, hfirst⟩ := exists_isFirst (entry_eq_ok_iff.mp hj)
  obtain ⟨i, rfl, hi⟩ := hpool.exists_index hfirst.1
  refine ⟨i, hi, fun k hk => ?_, runOn_intern_of_isFirst hpool hfirst⟩
  rw [UInt16.le_iff_toNat_le]
  exact Nat.le_of_not_lt fun hlt => hfirst.2 k.toNat hlt (entry_eq_ok_iff.mp hk)

/-- An entry that is not stored is unknown to the index. -/
theorem Consistent.index_eq_none (hpool : Consistent pool) (habsent : ∀ i, pool.entry i ≠ .ok c) :
    pool.index[c]? = none := by
  cases hknown : pool.index[c]? with
  | none => rfl
  | some i => exact absurd (entry_eq_ok_iff.mpr ((hpool.index c i).mp hknown).1) (habsent i)

/-- An entry that is not stored is interned behind the others, if there is room. -/
theorem Consistent.intern_of_absent (hpool : Consistent pool)
    (habsent : ∀ i, pool.entry i ≠ .ok c) :
    (intern c).runOn pool =
      if pool.size + c.slots ≤ 65535 then (.ok (UInt16.ofNat pool.size), pool.push c)
      else (.error (.overflow .constantPool), pool) := by
  have hunknown := hpool.index_eq_none habsent
  unfold intern Edit.runOn
  simp only [ExceptT.mk, ExceptT.run]
  rw [hunknown]
  rfl

/-- Interning fails exactly for an entry that is not stored and has no room. The
pool is said to overflow then, and stays as it is. -/
theorem Consistent.intern_eq_error_iff (hpool : Consistent pool) {e : Error}
    {next : ConstantPool} :
    (intern c).runOn pool = (.error e, next) ↔
      (e = .overflow .constantPool ∧ next = pool) ∧ (∀ i, pool.entry i ≠ .ok c) ∧
        65535 < pool.size + c.slots := by
  by_cases hstored : ∃ j, pool.entry j = .ok c
  · obtain ⟨j, hj⟩ := hstored
    obtain ⟨i, -, -, hrun⟩ := hpool.intern_of_stored hj
    rw [hrun]
    exact iff_of_false (fun h => by cases h) fun h => h.2.1 j hj
  have habsent : ∀ i, pool.entry i ≠ .ok c := fun i hi => hstored ⟨i, hi⟩
  rw [hpool.intern_of_absent habsent]
  by_cases hroom : pool.size + c.slots ≤ 65535
  · rw [if_pos hroom]
    exact iff_of_false (fun h => by cases h) fun h => by omega
  · rw [if_neg hroom]
    constructor
    · rintro ⟨⟩
      exact ⟨⟨rfl, rfl⟩, habsent, Nat.lt_of_not_le hroom⟩
    · rintro ⟨⟨rfl, rfl⟩, -, -⟩
      rfl

end Intern

/-- Whatever is asked of a pool that can be made, and whichever of the requests
fail, every index keeps its entry, and every view that has shown something shows
the same. After all of it interning is exact: the index that it gives leads to
the entry; an entry that is stored is given its smallest index, and the pool
stays as it is, even if it is full; and the pool overflows, and stays as it is,
exactly for an entry that is not stored and for which there is no room. -/
theorem Reachable.indices_last {wasRead : Bool} {pool : ConstantPool}
    (h : Reachable wasRead pool) (history : List Addition) :
    (∀ i c, pool.entry i = .ok c → (pool.after history).entry i = .ok c) ∧
      (∀ (α : Type) (query : Query α) (answer : α), query.ask pool = .ok answer →
        query.ask (pool.after history) = .ok answer) ∧
      ∀ c,
        (∀ i next, (intern c).runOn (pool.after history) = (.ok i, next) → next.entry i = .ok c) ∧
        (∀ j, (pool.after history).entry j = .ok c →
          ∃ i, (pool.after history).entry i = .ok c ∧
            (∀ k, (pool.after history).entry k = .ok c → i ≤ k) ∧
            (intern c).runOn (pool.after history) = (.ok i, pool.after history)) ∧
        (∀ e next, (intern c).runOn (pool.after history) = (.error e, next) ↔
          (e = .overflow .constantPool ∧ next = pool.after history) ∧
            (∀ i, (pool.after history).entry i ≠ .ok c) ∧
            65535 < (pool.after history).size + c.slots) := by
  have hgrows := pool.grows_after history
  have hlater := (h.after history).consistent
  refine ⟨fun i c => hgrows.entry, fun α query answer => hgrows.ask, fun c => ?_⟩
  exact ⟨fun i next => entry_of_intern hlater, fun j => hlater.intern_of_stored,
    fun e next => hlater.intern_eq_error_iff⟩

/-- A copy of an entry that is not there. -/
def missingEntry : Addition := .copied (empty 1) (fun name => name) 9

/-- A pool that was read with the same integer twice keeps both places over a
history in which a copy fails, and the integer is interned at the first one. -/
theorem indices_last_repeated :
    ∃ pool, decode 0 repeatedBytes = .ok (pool, []) ∧ Reachable true pool ∧
      (missingEntry.index.runOn pool).1 = .error (.malformed (.poolIndex 9)) ∧
      let later := pool.after [missingEntry, .symbol .classInfo "C"]
      later.entry 1 = .ok (.integer 1) ∧ later.entry 2 = .ok (.integer 1) ∧
        (Query.long 3).ask later = .ok 7 ∧ (intern (.integer 1)).runOn later = (.ok 1, later) := by
  obtain ⟨pool, hdecode, hslots⟩ : ∃ pool, decode 0 repeatedBytes = .ok (pool, []) ∧
      pool.slots = #[none, some (.integer 1), some (.integer 1), some (.long 7), none] :=
    ⟨_, rfl, rfl⟩
  have hreachable : Reachable true pool := .decode hdecode
  obtain ⟨hentries, hqueries, hintern⟩ :=
    hreachable.indices_last [missingEntry, .symbol .classInfo "C"]
  have hone := hentries 1 (.integer 1) (entry_eq_ok_iff.mpr (by rw [hslots]; rfl))
  have htwo := hentries 2 (.integer 1) (entry_eq_ok_iff.mpr (by rw [hslots]; rfl))
  have hlong := hqueries _ (.long 3) 7
    (bind_eq_ok_iff.mpr ⟨.long 7, entry_eq_ok_iff.mpr (by rw [hslots]; rfl), rfl⟩)
  refine ⟨pool, hdecode, hreachable, rfl, hone, htwo, hlong, ?_⟩
  -- the smallest index of the integer is one, since the first slot stays empty
  obtain ⟨i, hi, hleast, hrun⟩ := (hintern (.integer 1)).2.1 1 hone
  have hle : i.toNat ≤ 1 := UInt16.le_iff_toNat_le.mp (hleast 1 hone)
  have hne : i.toNat ≠ 0 := by
    intro hzero
    have hempty : pool.slots[0]? = some none := by rw [hslots]; rfl
    have hkept := (pool.grows_after [missingEntry, .symbol .classInfo "C"]).getElem?_slots hempty
    have hentry := entry_eq_ok_iff.mp hi
    rw [hzero, hkept] at hentry
    cases hentry
  have hi : i = 1 := UInt16.toNat_inj.mp (Nat.le_antisymm hle (Nat.pos_of_ne_zero hne))
  rwa [hi] at hrun

end JvmClass.ConstantPool
