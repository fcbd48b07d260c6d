import JvmClass.Proofs.ConstantPool.Permanence
import JvmClass.Proofs.Member.AttributeNames
import JvmClass.Proofs.Member.Readable

/-!
# Replaced bodies and lists of exceptions

A body or a list of exceptions is put in two steps: the old ones of its kind are taken
away, and then the name of the kind is asked of the pool, which may be full. The second
step cannot fail when the first one takes anything away. An attribute of a recognized kind
is named for it, so the name is stored, and a stored text is found even if it is stored
more than once. A put therefore happens as a whole or not at all.
-/

namespace JvmClass

/-! ## Names in a pool -/

namespace ConstantPool

variable {pool : ConstantPool} {i : UInt16} {s : String}

/-- A text is shown where it is stored. -/
theorem text_eq_ok_iff : pool.text i = .ok s ↔ pool.entry i = .ok (.text s) := by
  constructor
  · intro h
    obtain ⟨c, hentry, hview⟩ := bind_eq_ok_iff.mp h
    cases c with
    | text found =>
      cases hview
      exact hentry
    | _ => cases hview
  · exact fun h => bind_eq_ok_iff.mpr ⟨_, h, rfl⟩

/-- Interning a text fails exactly if the pool is full and shows the text nowhere. -/
theorem Consistent.internText_eq_error_iff (hpool : Consistent pool) {e : Error}
    {next : ConstantPool} :
    (internText s).runOn pool = (.error e, next) ↔
      (e = .overflow .constantPool ∧ next = pool) ∧ (∀ i, pool.text i ≠ .ok s) ∧
        pool.size = 65535 := by
  have hsize := hpool.size_le
  have hslots : (Constant.text s).slots = 1 := rfl
  have hfull : 65535 < pool.size + (Constant.text s).slots ↔ pool.size = 65535 := by omega
  unfold internText
  simp only [hpool.intern_eq_error_iff, ne_eq, text_eq_ok_iff, hfull]

/-- Integers can be stored one after the other until a pool is full. -/
theorem exists_reachable_of_integers {n : Nat} (hn : n ≤ 65534) :
    ∃ pool : ConstantPool, pool.Reachable false ∧ pool.size = n + 1 ∧
      ∀ i c, pool.entry i = .ok c → ∃ k < n, c = .integer (Int32.ofNat k) := by
  induction n with
  | zero =>
    refine ⟨empty 0, .empty 0, rfl, fun i c h => ?_⟩
    have hslot : (#[none] : Array (Option Constant))[i.toNat]? = some (some c) :=
      entry_eq_ok_iff.mp h
    cases hi : i.toNat <;> rw [hi] at hslot <;> cases hslot
  | succ n ih =>
    obtain ⟨pool, hpool, hsize, hentries⟩ := ih (by omega)
    have habsent : ∀ i, pool.entry i ≠ .ok (.integer (Int32.ofNat n)) := by
      intro i hi
      obtain ⟨k, hk, hsame⟩ := hentries i _ hi
      have hint := congrArg Int32.toInt (Constant.integer.inj hsame)
      rw [Int32.toInt_ofNat_of_lt (by omega), Int32.toInt_ofNat_of_lt (by omega)] at hint
      omega
    have hslots : (Constant.integer (Int32.ofNat n)).slots = 1 := rfl
    have hrun := hpool.consistent.intern_of_absent habsent
    rw [if_pos (by omega)] at hrun
    have hnext := hpool.added (.entry (.integer (Int32.ofNat n)))
    unfold Addition.index at hnext
    rw [hrun] at hnext
    refine ⟨_, hnext, ?_, fun i c h => ?_⟩
    · show (pool.push _).size = _
      rw [size_push, hsize, hslots]
    · rw [entry_eq_ok_iff, getElem?_slots_push_eq_some_iff] at h
      rcases h with hold | ⟨-, rfl⟩
      · obtain ⟨k, hk, rfl⟩ := hentries i c (entry_eq_ok_iff.mpr hold)
        exact ⟨k, Nat.lt_succ_of_lt hk, rfl⟩
      · exact ⟨n, Nat.lt_succ_self n, rfl⟩

end ConstantPool

/-! ## Attributes of recognized kinds -/

/-- The kind that a name leads to has this name, if it has one at all. -/
theorem AttributeKind.eq_of_name?_ofName {name other : String}
    (h : (ofName name).name? = some other) : other = name := by
  unfold ofName at h
  cases hfound : table.lookup name with
  | none =>
    rw [hfound] at h
    cases h
  | some kind =>
    rw [hfound, Option.getD_some] at h
    obtain ⟨before, behind, htable, -⟩ := List.lookup_eq_some_iff.mp hfound
    have hmem : (name, kind) ∈ table := htable ▸ List.mem_append_right _ List.mem_cons_self
    have hnamed : ∀ entry ∈ table, entry.2.name? = some entry.1 := by decide
    exact Option.some.inj (h.symm.trans (hnamed _ hmem))

namespace Attribute

variable {pool next : ConstantPool} {body : AttributeBody} {a : Attribute} {wasRead : Bool}

/-- Making an attribute of a kind fails exactly if the pool is full and shows the name of the
kind nowhere. -/
theorem ofBody_eq_error_iff {name : String} {e : Error} (hpool : pool.Consistent)
    (hname : body.kind.name? = some name) :
    (ofBody body).runOn pool = (.error e, next) ↔
      (e = .overflow .constantPool ∧ next = pool) ∧ (∀ i, pool.text i ≠ .ok name) ∧
        pool.size = 65535 := by
  rw [← hpool.internText_eq_error_iff]
  unfold ofBody
  rw [hname]
  simp only [Edit.runOn_bind]
  rcases (ConstantPool.internText name).runOn pool with ⟨failure | i, later⟩
  · constructor <;> rintro ⟨⟩ <;> rfl
  · exact iff_of_false (by rintro ⟨⟩) (by rintro ⟨⟩)

/-- The pool in which an attribute of a kind was made can be made again. -/
theorem reachable_of_ofBody (hpool : pool.Reachable wasRead)
    (hrun : (ofBody body).runOn pool = (.ok a, next)) : next.Reachable wasRead := by
  obtain ⟨-, name, -, htext⟩ := internText_of_ofBody hrun
  have hnext := hpool.added (.text name)
  unfold ConstantPool.Addition.index at hnext
  rwa [htext] at hnext

end Attribute

/-! ## Putting a payload -/

namespace Method

variable {pool next : ConstantPool} {m after : Method} {body : AttributeBody} {wasRead : Bool}

/-- Whether the attributes of recognized kinds are named for their kinds. -/
def NamesKinds (m : Method) (pool : ConstantPool) : Prop :=
  ∀ a ∈ m.attributeList, ∀ name, a.kind.name? = some name → a.name pool = .ok name

/-- The attributes of a method that is read are named for their kinds. -/
theorem Readable.namesKinds (h : m.Readable pool) : m.NamesKinds pool := by
  intro a ha name hname
  obtain ⟨list, hlist, hattributes⟩ := h
  unfold attributeList at ha
  rw [hlist] at ha
  obtain ⟨hshown, hkind, -⟩ := hattributes a ha
  rw [← hkind] at hname
  rw [AttributeKind.eq_of_name?_ofName hname]
  exact hshown

/-- The attributes of a method that is built are named for their kinds. -/
theorem Built.namesKinds {history : List Change} (h : Built history pool m) :
    m.NamesKinds pool := by
  intro a ha name hname
  obtain ⟨-, hlawful, hshows⟩ := h.settled
  obtain ⟨⟨found, kind⟩, hentry, heq⟩ := List.mem_map.mp (hshows ▸ List.mem_map_of_mem ha)
  obtain ⟨hfound, rfl⟩ := Prod.ext_iff.mp heq
  rcases allows_of_mem_replay hlawful hentry with hraw | hallowed
  · change a.kind = .raw at hraw
    rw [hraw] at hname
    cases hname
  · cases hallowed.symm.trans hname
    exact hfound.symm

/-- A method that has no attributes of a kind stays as it is when they are taken away. -/
theorem removeKind_eq_self {kind : AttributeKind} (h : ∀ a ∈ m.attributeList, a.kind ≠ kind) :
    m.removeKind kind = m := by
  obtain ⟨flags, nameIndex, descriptorIndex, attributes⟩ := m
  cases attributes with
  | none => rfl
  | some list =>
    have hall : Attribute.removeByKind kind list = list :=
      List.filter_eq_self.mpr fun a ha => decide_eq_true (h a ha)
    unfold removeKind
    rw [Option.map_some, hall]

/-- A put fails exactly if the pool is full and shows the name of the kind nowhere. Nothing
has been changed then. -/
theorem replaceKind_eq_error_iff {name : String} {e : Error} (hpool : pool.Consistent)
    (hnames : m.NamesKinds pool) (hname : body.kind.name? = some name) :
    (replaceKind body).runOn (pool, m) = (.error e, next, after) ↔
      (e = .overflow .constantPool ∧ next = pool ∧ after = m) ∧
        (∀ i, pool.text i ≠ .ok name) ∧ pool.size = 65535 := by
  rw [runOn_replaceKind]
  rcases hmake : (Attribute.ofBody body).runOn pool with ⟨failure | a, later⟩
  · obtain ⟨⟨rfl, rfl⟩, habsent, hfull⟩ := (Attribute.ofBody_eq_error_iff hpool hname).mp hmake
    -- an attribute of the kind would show its name
    have hnone : ∀ a ∈ m.attributeList, a.kind ≠ body.kind := fun a ha hkind =>
      habsent a.nameIndex (hnames a ha name (hkind ▸ hname))
    rw [removeKind_eq_self hnone]
    constructor
    · rintro ⟨⟩
      exact ⟨⟨rfl, rfl, rfl⟩, habsent, hfull⟩
    · rintro ⟨⟨rfl, rfl, rfl⟩, -⟩
      rfl
  · refine iff_of_false (by rintro ⟨⟩) fun ⟨_, habsent, hfull⟩ => ?_
    have hfails : (Attribute.ofBody body).runOn pool = (.error (.overflow .constantPool), pool) :=
      (Attribute.ofBody_eq_error_iff hpool hname).mpr ⟨⟨rfl, rfl⟩, habsent, hfull⟩
    cases hmake.symm.trans hfails

/-- There are pools that have no room for the name of bodies. -/
theorem exists_replaceKind_eq_error :
    ∃ pool : ConstantPool, pool.Reachable false ∧
      (replaceKind (.code returnCode)).runOn (pool, bareMethod) =
        (.error (.overflow .constantPool), pool, bareMethod) := by
  obtain ⟨pool, hpool, hsize, hentries⟩ :=
    ConstantPool.exists_reachable_of_integers (Nat.le_refl 65534)
  have hname : (AttributeBody.code returnCode).kind.name? = some "Code" := by decide
  have habsent : ∀ i, pool.text i ≠ .ok "Code" := by
    intro i hi
    obtain ⟨k, -, htext⟩ := hentries i _ (ConstantPool.text_eq_ok_iff.mp hi)
    cases htext
  have hnames : bareMethod.NamesKinds pool := nofun
  exact ⟨pool, hpool, (replaceKind_eq_error_iff hpool.consistent hnames hname).mpr
    ⟨⟨rfl, rfl, rfl⟩, habsent, hsize⟩⟩

/-- A put that succeeds leaves one attribute of the kind, which holds the payload, behind all
attributes of other kinds. -/
theorem replaceKind_eq_ok (hpool : pool.Reachable wasRead) (hnames : m.NamesKinds pool)
    (hrun : (replaceKind body).runOn (pool, m) = (.ok (), next, after)) :
    ∃ a, a.body = body ∧ next.Reachable wasRead ∧ after.NamesKinds next ∧
      after = { m with
        attributes := some (Attribute.removeByKind body.kind m.attributeList ++ [a]) } := by
  rw [runOn_replaceKind] at hrun
  split at hrun
  · next a later hmake =>
    cases hrun
    have hlater := Attribute.reachable_of_ofBody hpool hmake
    have hbody := (Attribute.internText_of_ofBody hmake).1
    obtain ⟨hkind, name, hname, hshown⟩ := Attribute.name_of_ofBody hpool.consistent hmake
    have hgrows := (Attribute.onlyAdds_ofBody body).grows_of_eq hmake
    rw [attributeList_removeKind]
    refine ⟨a, hbody, hlater, ?_, rfl⟩
    intro other hother found hfound
    rcases List.mem_append.mp hother with hold | hnew
    · exact hgrows.text (hnames other (List.mem_filter.mp hold).1 found hfound)
    · cases List.mem_singleton.mp hnew
      rw [hkind, hname] at hfound
      cases hfound
      exact hshown
  · cases hrun

/-- Putting a body or a list of exceptions into a method whose attributes are named for their
kinds happens as a whole or not at all. It fails exactly if the pool is full and shows the
name of the kind nowhere, and then neither the method nor the pool is changed. If it succeeds,
one attribute of the kind is there, which holds the payload, behind all other attributes in
their order. It cannot fail while the method has an attribute of the kind. -/
theorem replaceKind_all_or_nothing (hpool : pool.Reachable wasRead) (hnames : m.NamesKinds pool)
    (hkind : body.kind.OfMethods) :
    (∀ e next after, (replaceKind body).runOn (pool, m) = (.error e, next, after) ↔
        (e = .overflow .constantPool ∧ next = pool ∧ after = m) ∧
          (∀ name, body.kind.name? = some name → ∀ i, pool.text i ≠ .ok name) ∧
            pool.size = 65535) ∧
      (∀ next after, (replaceKind body).runOn (pool, m) = (.ok (), next, after) →
        next.Reachable wasRead ∧ after.NamesKinds next ∧
          ∃ a, a.body = body ∧
            after = { m with
              attributes :=
                some (m.attributeList.filter (fun other => other.kind ≠ body.kind) ++ [a]) } ∧
            after.attributeList.filter (fun other => other.kind = body.kind) = [a]) ∧
      ∀ old ∈ m.attributeList, old.kind = body.kind →
        ∃ next after, (replaceKind body).runOn (pool, m) = (.ok (), next, after) := by
  obtain ⟨name, hname⟩ : ∃ name, body.kind.name? = some name := by
    rcases hkind with hcode | hexceptions
    · exact ⟨"Code", hcode ▸ rfl⟩
    · exact ⟨"Exceptions", hexceptions ▸ rfl⟩
  refine ⟨fun e next after => ?_, fun next after hrun => ?_, fun old hold hsame => ?_⟩
  · rw [replaceKind_eq_error_iff hpool.consistent hnames hname]
    simp only [hname, Option.some.injEq, forall_eq']
  · obtain ⟨a, hbody, hnext, hafter, rfl⟩ := replaceKind_eq_ok hpool hnames hrun
    refine ⟨hnext, hafter, a, hbody, rfl, ?_⟩
    have hnew : a.kind = body.kind := congrArg AttributeBody.kind hbody
    have hothers : (m.attributeList.filter fun other => other.kind ≠ body.kind).filter
        (fun other => other.kind = body.kind) = [] := by
      rw [List.filter_eq_nil_iff]
      intro other hother
      simpa using (List.mem_filter.mp hother).2
    have hlast : [a].filter (fun other => other.kind = body.kind) = [a] :=
      List.filter_cons_of_pos (decide_eq_true hnew)
    show List.filter _ (List.filter _ _ ++ [a]) = [a]
    rw [List.filter_append, hothers, hlast]
    rfl
  · rcases hrun : (replaceKind body).runOn (pool, m) with ⟨e | -, next, after⟩
    · obtain ⟨-, habsent, -⟩ :=
        (replaceKind_eq_error_iff hpool.consistent hnames hname).mp hrun
      exact absurd (hnames old hold name (hsame ▸ hname)) (habsent old.nameIndex)
    · exact ⟨next, after, rfl⟩

/-- A pool in which the name of bodies is stored twice. -/
def doubledName : ConstantPool :=
  ((ConstantPool.decode 0 ([0, 4, 1, 0, 4, 67, 111, 100, 101, 1, 0, 4, 67, 111, 100, 101] ++
    [1, 0, 1, 88])).toOption.map Prod.fst).getD (.empty 0)

/-- A method with two bodies, which have their name from its second place, and an attribute
that is kept as it is between them. -/
def twoBodies : Method :=
  { flags := .none
    nameIndex := 3
    descriptorIndex := 3
    attributes := some [⟨2, .code returnCode⟩, ⟨3, .data (.raw [1])⟩, ⟨2, .code returnCode⟩] }

/-- Both bodies give way to the one that is put, although their name is found at its first
place. -/
theorem replaceKind_all_or_nothing_twoBodies :
    (doubledName.Reachable true ∧ twoBodies.NamesKinds doubledName ∧
      (AttributeBody.code returnCode).kind.OfMethods) ∧
      ∃ next after a, (replaceKind (.code returnCode)).runOn (doubledName, twoBodies) =
          (.ok (), next, after) ∧
        a.body = .code returnCode ∧
          after.attributeList = [⟨3, .data (.raw [1])⟩, a] := by
  have hpool : doubledName.Reachable true := by
    have hdecode : ConstantPool.decode 0 ([0, 4, 1, 0, 4, 67, 111, 100, 101, 1, 0, 4, 67, 111] ++
        [100, 101, 1, 0, 1, 88]) = .ok (doubledName, []) := rfl
    exact .decode hdecode
  have hnames : twoBodies.NamesKinds doubledName := by
    have hcode : Attribute.name ⟨2, .code returnCode⟩ doubledName = .ok "Code" := by
      decide +kernel
    intro a ha name hname
    rcases List.mem_cons.mp ha with rfl | ha
    · cases hname
      exact hcode
    rcases List.mem_pair.mp ha with rfl | rfl <;> cases hname
    exact hcode
  have hkind : (AttributeBody.code returnCode).kind.OfMethods := .inl rfl
  obtain ⟨-, hput, hsucceeds⟩ := replaceKind_all_or_nothing hpool hnames hkind
  obtain ⟨next, after, hrun⟩ := hsucceeds ⟨2, .code returnCode⟩ List.mem_cons_self rfl
  obtain ⟨-, -, a, hbody, rfl, -⟩ := hput next after hrun
  exact ⟨⟨hpool, hnames, hkind⟩, next, _, a, hrun, hbody, rfl⟩

end Method

end JvmClass
