import JvmClass.Proofs.CallSite.Searching

/-!
# Visits to dynamic calls

All dynamic calls of a class are visited, and some of them are replaced on the way. A
log of the visits tells which calls they were made to: each to one of the class as it
was, one after the other, until all were visited or a visit failed. A call that is part
of a statement is not visited, so that the search comes to an end.
-/

namespace JvmClass

/-! ## The calls of a class -/

namespace Bytecode

/-- The dynamic calls among instructions of code. -/
def callsAmong (code : Bytecode) (starts : List Nat) : List Nat :=
  starts.filter fun p => code[p]? = some Opcode.invokeDynamic

/-- The positions of the dynamic calls in code. -/
def dynamicCalls (code : Bytecode) : List Nat := code.callsAmong (code.starts.toOption.getD [])

variable {code : Bytecode} {starts : List Nat} {p : Nat}

/-- A dynamic call is one of the calls. -/
theorem callsAmong_cons_of_call (hcall : code[p]? = some Opcode.invokeDynamic) :
    code.callsAmong (p :: starts) = p :: code.callsAmong starts :=
  List.filter_cons_of_pos (decide_eq_true hcall)

/-- Other instructions are not. -/
theorem callsAmong_cons_of_other (hother : code[p]? ≠ some Opcode.invokeDynamic) :
    code.callsAmong (p :: starts) = code.callsAmong starts :=
  List.filter_cons_of_neg (by rw [decide_eq_false hother]; exact Bool.false_ne_true)

/-- There are no more calls than instructions. -/
theorem length_callsAmong_le (code : Bytecode) (starts : List Nat) :
    (code.callsAmong starts).length ≤ starts.length := List.length_filter_le _ _

/-- The dynamic calls in code are among its instructions. -/
theorem dynamicCalls_of_starts (hstarts : code.starts = .ok starts) :
    code.dynamicCalls = code.callsAmong starts := by
  unfold dynamicCalls
  rw [hstarts]
  rfl

end Bytecode

namespace ClassFile

/-- The positions of the dynamic calls in a method. -/
def callsIn (c : ClassFile) (method : Nat) : List (Nat × Nat) :=
  ((c.codeAt? method).elim [] fun code => Bytecode.dynamicCalls code.bytes).map (method, ·)

/-- The dynamic calls of a class, each with its method and its position. -/
def dynamicCalls (c : ClassFile) : List (Nat × Nat) :=
  (List.range c.methods.length).flatMap c.callsIn

end ClassFile

namespace CallSite

/-! ## Logs -/

/-- A visit that was made to a dynamic call. -/
structure Visit where
  /-- The call. -/
  call : CallSite
  /-- The class before the visit. -/
  before : ClassFile
  /-- The call as the visit has left it. -/
  left : CallSite
  /-- The class after the visit, whether it succeeded or not. -/
  after : ClassFile

section Logs

variable {σ α : Type} (visit : Edit (σ × CallSite × ClassFile) Unit)

/-- The same visits with a log, the last one first. -/
def recording : Edit ((σ × List Visit) × CallSite × ClassFile) Unit :=
  ExceptT.mk fun ((state, log), call, c) =>
    let (outcome, state, left, after) := visit.runOn (state, call, c)
    (outcome, (state, ⟨call, c, left, after⟩ :: log), left, after)

/-- A visit is made in some state. -/
def Makes (v : Visit) : Prop :=
  ∃ state outcome state', visit.runOn (state, v.call, v.before) = (outcome, state', v.left, v.after)

/-- An edit with a log does what an edit does without, and adds its visits to the log. -/
def Logs (logged : Edit ((σ × List Visit) × ClassFile) α) (plain : Edit (σ × ClassFile) α) : Prop :=
  ∀ state log c, ∃ added, (∀ v ∈ added, Makes visit v) ∧
    logged.runOn ((state, log), c) =
      let run := plain.runOn (state, c)
      (run.1, (run.2.1, added ++ log), run.2.2)

/-- A visit that succeeds gives where it has left the call. -/
theorem runOn_visitCall (call : CallSite) (state : σ) (c : ClassFile) :
    (visitCall visit call).runOn (state, c) =
      match visit.runOn (state, call, c) with
      | (.ok (), state, call, c) => (.ok call.stop, state, c)
      | (.error e, state, _, c) => (.error e, state, c) := rfl

/-- A search in a method takes the next dynamic call, if there is one, and goes on where
the visit has left it. -/
theorem runOn_visitMethod (method steps position : Nat) (state : σ) (c : ClassFile) :
    (visitMethod visit method (steps + 1) position).runOn (state, c) =
      match c.codeAt? method with
      | none => (.ok (), state, c)
      | some code =>
        match Bytecode.nextDynamicCall? code.bytes position with
        | .error e => (.error e, state, c)
        | .ok none => (.ok (), state, c)
        | .ok (some found) =>
          match ofInstruction c method found with
          | .error e => (.error e, state, c)
          | .ok call =>
            match visit.runOn (state, call, c) with
            | (.error e, state, _, c) => (.error e, state, c)
            | (.ok (), state, call, c) =>
              (visitMethod visit method steps call.stop).runOn (state, c) := by
  rw [visitMethod]
  simp only [Edit.runOn_bind, Edit.runOn_get]
  cases c.codeAt? method with
  | none => rfl
  | some code =>
    simp only [Edit.runOn_bind, Edit.runOn_lift]
    rcases Bytecode.nextDynamicCall? code.bytes position with e | (_ | found)
    · rfl
    · rfl
    simp only [Edit.runOn_bind, Edit.runOn_lift]
    cases ofInstruction c method found with
    | error e => rfl
    | ok call =>
      simp only
      rw [runOn_visitCall]
      rcases visit.runOn (state, call, c) with ⟨outcome, state', left, c'⟩
      cases outcome <;> rfl

/-- A recorded visit is the visit itself, and is the last in the log. -/
theorem runOn_recording (call : CallSite) (state : σ) (log : List Visit) (c : ClassFile) :
    (recording visit).runOn ((state, log), call, c) =
      let run := visit.runOn (state, call, c)
      (run.1, (run.2.1, ⟨call, c, run.2.2.1, run.2.2.2⟩ :: log), run.2.2.1, run.2.2.2) := rfl

variable {visit}

/-- What an edit with a log has done. -/
theorem Logs.runOn_eq {logged : Edit ((σ × List Visit) × ClassFile) α}
    {plain : Edit (σ × ClassFile) α} (logs : Logs visit logged plain) {state state' : σ}
    {log log' : List Visit} {c c' : ClassFile} {outcome : Except Error α}
    (h : logged.runOn ((state, log), c) = (outcome, (state', log'), c')) :
    plain.runOn (state, c) = (outcome, state', c') ∧
      ∃ added, log' = added ++ log ∧ ∀ v ∈ added, Makes visit v := by
  obtain ⟨added, hmade, hlogs⟩ := logs state log c
  have hsame := h.symm.trans hlogs
  rcases hplain : plain.runOn (state, c) with ⟨result, next, edited⟩
  rw [hplain] at hsame
  cases hsame
  exact ⟨rfl, added, rfl, hmade⟩

/-- Two edits in a row add both of their visits to the log. -/
theorem Logs.bind {β : Type} {logged : Edit ((σ × List Visit) × ClassFile) α}
    {plain : Edit (σ × ClassFile) α} {next : α → Edit ((σ × List Visit) × ClassFile) β}
    {next' : α → Edit (σ × ClassFile) β} (first : Logs visit logged plain)
    (later : ∀ a, Logs visit (next a) (next' a)) :
    Logs visit (logged >>= next) (plain >>= next') := by
  intro state log c
  obtain ⟨added, hmade, hfirst⟩ := first state log c
  rw [Edit.runOn_bind, Edit.runOn_bind, hfirst]
  rcases plain.runOn (state, c) with ⟨outcome, state', c'⟩
  cases outcome with
  | error e => exact ⟨added, hmade, rfl⟩
  | ok a =>
    obtain ⟨more, hmore, hlater⟩ := later a state' (added ++ log) c'
    refine ⟨more ++ added, List.forall_mem_append.mpr ⟨hmore, hmade⟩, ?_⟩
    rw [List.append_assoc]
    exact hlater

/-- Edits for all items of a list add their visits to the log. -/
theorem Logs.forM {ι : Type} {logged : ι → Edit ((σ × List Visit) × ClassFile) Unit}
    {plain : ι → Edit (σ × ClassFile) Unit} (each : ∀ i, Logs visit (logged i) (plain i))
    (items : List ι) : Logs visit (items.forM logged) (items.forM plain) := by
  induction items with
  | nil => exact fun _ _ _ => ⟨[], List.forall_mem_nil _, rfl⟩
  | cons i items ih => exact (each i).bind fun _ => ih

/-- A search in a method adds its visits to the log. -/
theorem logs_visitMethod (method steps position : Nat) :
    Logs visit (visitMethod (recording visit) method steps position)
      (visitMethod visit method steps position) := by
  induction steps generalizing position with
  | zero => exact fun _ _ _ => ⟨[], List.forall_mem_nil _, rfl⟩
  | succ steps ih =>
    intro state log c
    rw [runOn_visitMethod, runOn_visitMethod]
    have hnone : ∀ outcome : Except Error Unit, ∃ added, (∀ v ∈ added, Makes visit v) ∧
        (outcome, (state, log), c) = (outcome, (state, added ++ log), c) :=
      fun _ => ⟨[], List.forall_mem_nil _, rfl⟩
    cases c.codeAt? method with
    | none => exact hnone (.ok ())
    | some code =>
      simp only
      rcases Bytecode.nextDynamicCall? code.bytes position with e | (_ | found)
      · exact hnone (.error e)
      · exact hnone (.ok ())
      simp only
      cases ofInstruction c method found with
      | error e => exact hnone (.error e)
      | ok call =>
        simp only [runOn_recording]
        rcases hvisit : visit.runOn (state, call, c) with ⟨outcome, state', left, c'⟩
        have hmade : Makes visit ⟨call, c, left, c'⟩ := ⟨state, outcome, state', hvisit⟩
        cases outcome with
        | error e => exact ⟨[_], fun v hv => List.mem_singleton.mp hv ▸ hmade, rfl⟩
        | ok u =>
          obtain ⟨added, hadded, hlater⟩ := ih left.stop state' (⟨call, c, left, c'⟩ :: log) c'
          refine ⟨added ++ [⟨call, c, left, c'⟩], ?_, ?_⟩
          · exact List.forall_mem_append.mpr
              ⟨hadded, fun v hv => List.mem_singleton.mp hv ▸ hmade⟩
          · rw [List.append_assoc]
            exact hlater

/-- Visit the dynamic calls of a method, with a number of steps that may depend on the
class at that time. -/
def visitBody (visit : Edit (σ × CallSite × ClassFile) Unit) (steps : ClassFile → Nat → Nat)
    (method : Nat) : Edit (σ × ClassFile) Unit := do
  let (_, c) ← get
  visitMethod visit method (steps c method) 0

/-- A search in a method begins at its first instruction. -/
theorem runOn_visitBody (steps : ClassFile → Nat → Nat) (method : Nat) (state : σ)
    (c : ClassFile) : (visitBody visit steps method).runOn (state, c) =
      (visitMethod visit method (steps c method) 0).runOn (state, c) := rfl

/-- The search in a method adds its visits to the log. -/
theorem logs_visitBody (steps : ClassFile → Nat → Nat) (method : Nat) :
    Logs visit (visitBody (recording visit) steps method) (visitBody visit steps method) := by
  intro state log c
  rw [runOn_visitBody, runOn_visitBody]
  exact logs_visitMethod method (steps c method) 0 state log c

end Logs

end CallSite

namespace ClassFile

variable {σ : Type} {visit : Edit (σ × CallSite × ClassFile) Unit}

/-- Visit every dynamic call of a class, with so many steps for each method. -/
def editCallSitesWithin (visit : Edit (σ × CallSite × ClassFile) Unit)
    (steps : ClassFile → Nat → Nat) : Edit (σ × ClassFile) Unit := do
  let (_, c) ← get
  (List.range c.methods.length).forM (CallSite.visitBody visit steps)

/-- The steps that a pass over a class takes depend on the sizes of the bodies. -/
theorem editCallSites_eq : editCallSites visit = editCallSitesWithin visit CallSite.visitSteps :=
  rfl

/-- A pass over a class adds its visits to the log. -/
theorem logs_editCallSitesWithin (steps : ClassFile → Nat → Nat) :
    CallSite.Logs visit (editCallSitesWithin (CallSite.recording visit) steps)
      (editCallSitesWithin visit steps) := fun state log c =>
  CallSite.Logs.forM (CallSite.logs_visitBody steps) (List.range c.methods.length) state log c

end ClassFile

namespace CallSite

/-! ## Calls that are found -/

/-- A visit is made to the dynamic call that was at `p` in a method of a class, where it
is at that moment. -/
structure Visit.Finds (c : ClassFile) (method p : Nat) (v : Visit) : Prop where
  /-- The call is in the method. -/
  inMethod : v.call.method = method
  /-- Its instruction has moved there, and is as far from the end of the body as it was. -/
  place : ∃ old now route, c.codeAt? method = some old ∧ v.before.codeAt? method = some now ∧
    Bytecode.Moved route old.bytes now.bytes p v.call.position ∧
    v.call.position + old.bytes.size = p + now.bytes.size
  /-- It has the index that the instruction had. -/
  index : ((c.codeAt? method).bind fun old => Bytecode.dynamicCallAt? old.bytes p) =
    some v.call.callSiteIndex

/-- A visit leaves its call alone, or replaces it by a statement that was compiled to
complete instructions other than switches. -/
inductive Visit.Tame (v : Visit) : Prop where
  /-- Nothing is done to the call and the class. -/
  | alone (hcall : v.left = v.call) (hclass : v.after = v.before)
  /-- The call is replaced. -/
  | replaced {κ : Type} {compiler : StatementCompiler κ} {statement : String} {state state' : κ}
      (h : (replace compiler statement).runOn (state, v.call, v.before) =
        (.ok (), state', v.left, v.after))
      (hplain : ∀ r : Replacement,
        r.Performed compiler statement v.call (state, v.before) (state', v.after) →
          Bytecode.IsPlain r.compiled.code)

/-- Of some calls of a class the first ones were visited, in order and with a log, and
all of them if nothing has failed. -/
def Found (c : ClassFile) (calls : List (Nat × Nat)) (outcome : Except Error Unit)
    (log log' : List Visit) : Prop :=
  ∃ met left added, calls = met ++ left ∧ log' = added ++ log ∧
    List.Forall₂ (fun (call : Nat × Nat) (v : Visit) => v.Finds c call.1 call.2) met
      added.reverse ∧ (outcome = .ok () → left = [])

section Found

variable {c : ClassFile} {calls others : List (Nat × Nat)} {outcome : Except Error Unit}
  {log mid log' : List Visit}

/-- No call is visited. -/
theorem Found.none (h : outcome = .ok () → calls = []) : Found c calls outcome log log :=
  ⟨[], calls, [], rfl, rfl, .nil, h⟩

/-- A call is visited before others. -/
theorem Found.visit {method p : Nat} {v : Visit} (hfinds : v.Finds c method p)
    (later : Found c calls outcome (v :: log) log') :
    Found c ((method, p) :: calls) outcome log log' := by
  obtain ⟨met, left, added, rfl, rfl, hfound, hall⟩ := later
  refine ⟨(method, p) :: met, left, added ++ [v], rfl, ?_, ?_, hall⟩
  · rw [List.append_assoc]
    rfl
  · rw [List.reverse_append]
    exact .cons hfinds hfound

/-- All calls are visited before others. -/
theorem Found.append (first : Found c calls (.ok ()) log mid)
    (later : Found c others outcome mid log') : Found c (calls ++ others) outcome log log' := by
  obtain ⟨met, left, added, rfl, rfl, hfound, hall⟩ := first
  obtain ⟨met', left', added', rfl, rfl, hfound', hall'⟩ := later
  obtain rfl := hall rfl
  refine ⟨met ++ met', left', added' ++ added, ?_, ?_, ?_, hall'⟩
  · rw [List.append_nil, List.append_assoc]
  · rw [List.append_assoc]
  · rw [List.reverse_append]
    exact List.rel_append hfound hfound'

/-- Others are not visited behind a failure. -/
theorem Found.fail {e : Error} (first : Found c calls (.error e) log log') :
    Found c (calls ++ others) (.error e) log log' := by
  obtain ⟨met, left, added, rfl, rfl, hfound, -⟩ := first
  exact ⟨met, left ++ others, added, List.append_assoc .., rfl, hfound, fun h => by cases h⟩

end Found

/-! ## Searches in a method -/

section Method

variable {σ : Type} {visit : Edit (σ × CallSite × ClassFile) Unit} {c₀ : ClassFile}
  {method : Nat} {old : Code} {grown first p position : Nat} {pending : List Nat}

/-- A tame visit leaves the other methods, and the search goes on over the instructions
behind the call. -/
theorem Visit.Tame.searching {v : Visit} (tame : v.Tame) {now : Code}
    (hcall : ofInstruction v.before method (p + grown) = .ok v.call)
    (hnow : v.before.codeAt? method = some now)
    (searching : Bytecode.Searching grown first (p :: pending) position old.bytes now.bytes)
    (hbyte : old.bytes[p]? = some Opcode.invokeDynamic) :
    (∀ i, i ≠ method → v.after.codeAt? i = v.before.codeAt? i) ∧
      ∃ next grown' first', v.after.codeAt? method = some next ∧
        Bytecode.Searching grown' first' pending v.left.stop old.bytes next.bytes := by
  cases tame with
  | alone hleft hclass =>
    rw [hleft, hclass, (index_and_stop_of_ofInstruction hcall hnow).2]
    exact ⟨fun _ _ => rfl, now, _, _, hnow, searching.leave hbyte⟩
  | replaced h hplain =>
    obtain ⟨starts, walk, hmem, hpending⟩ := searching.exists_walk hbyte
    obtain ⟨hposition, hopcode, r, rfl, performed, hnew, hleft⟩ := exists_replacement hcall hnow h
    rw [← hposition] at hmem hopcode
    obtain ⟨spliced, moved, hspliced, -, -, hbody⟩ := performed.exists_spliced walk hmem hopcode
    have hbytes : r.new.bytes = spliced.bytes := by rw [hbody]
    rw [hposition] at hspliced hmem
    have later := hspliced.searching searching hbyte walk hmem hpending
      (Replacement.exists_walk_body hspliced (hplain r performed))
    have hstop : v.left.stop = p + grown + max r.body.length 5 := by rw [hleft]
    rw [← hbytes, ← hstop] at later
    refine ⟨fun i hi => ?_, r.new, _, _, hnew, later⟩
    have hchanged : v.after = v.before.withCodeAt v.call.method r.new := performed.changed
    rw [hchanged, (ofInstruction_eq_ok hcall).1]
    exact ClassFile.codeAt?_withCodeAt_of_ne v.before hi r.new

/-- A visit to the call at which a search stops finds a call of the old body. -/
theorem Visit.finds_of_searching (hold : c₀.codeAt? method = some old) {c : ClassFile} {now : Code}
    {call : CallSite} (hcall : ofInstruction c method (p + grown) = .ok call)
    (hnow : c.codeAt? method = some now)
    (searching : Bytecode.Searching grown first (p :: pending) position old.bytes now.bytes)
    (hbyte : old.bytes[p]? = some Opcode.invokeDynamic) (left : CallSite) (after : ClassFile) :
    Visit.Finds c₀ method p ⟨call, c, left, after⟩ := by
  obtain ⟨n, route, -, -, moved, -⟩ := searching.exists_moved
  obtain ⟨hmethod, hposition, -⟩ := ofInstruction_eq_ok hcall
  refine ⟨hmethod, ⟨old, now, route, hold, hnow, ?_, ?_⟩, ?_⟩
  · rw [hposition]
    exact moved
  · rw [hposition, searching.stretched.size]
    omega
  · rw [hold, Option.bind_some, ← moved.dynamicCallAt?_eq hbyte]
    exact (index_and_stop_of_ofInstruction hcall hnow).1

/-- Visits of a search over instructions of the old body. -/
theorem found_of_searching (hold : c₀.codeAt? method = some old)
    {state state' : σ} {log log' : List Visit} {c c' : ClassFile} {now : Code}
    {outcome : Except Error Unit} {steps steps' : Nat}
    (searching : Bytecode.Searching grown first pending position old.bytes now.bytes)
    (hnow : c.codeAt? method = some now)
    (hsteps : (Bytecode.callsAmong old.bytes pending).length < steps)
    (hsteps' : (Bytecode.callsAmong old.bytes pending).length < steps')
    (hrun : (visitMethod (recording visit) method steps position).runOn ((state, log), c) =
      (outcome, (state', log'), c'))
    (htame : ∀ v ∈ log', v.Tame) :
    (visitMethod (recording visit) method steps' position).runOn ((state, log), c) =
        (outcome, (state', log'), c') ∧
      (∀ i, i ≠ method → c'.codeAt? i = c.codeAt? i) ∧
      Found c₀ ((Bytecode.callsAmong old.bytes pending).map (method, ·)) outcome log log' := by
  induction pending generalizing grown first position state log c now steps steps' with
  | nil =>
    obtain ⟨steps, rfl⟩ := Nat.exists_add_one_eq.mpr (Nat.zero_lt_of_lt hsteps)
    obtain ⟨steps', rfl⟩ := Nat.exists_add_one_eq.mpr (Nat.zero_lt_of_lt hsteps')
    rw [runOn_visitMethod, hnow] at hrun ⊢
    simp only [searching.next_nil] at hrun ⊢
    cases hrun
    exact ⟨rfl, fun _ _ => rfl, .none fun _ => rfl⟩
  | cons p pending ih =>
    by_cases hbyte : old.bytes[p]? = some Opcode.invokeDynamic
    · rw [Bytecode.callsAmong_cons_of_call hbyte] at hsteps hsteps' ⊢
      obtain ⟨steps, rfl⟩ := Nat.exists_add_one_eq.mpr (Nat.zero_lt_of_lt hsteps)
      obtain ⟨steps', rfl⟩ := Nat.exists_add_one_eq.mpr (Nat.zero_lt_of_lt hsteps')
      have hrest := Nat.lt_of_succ_lt_succ hsteps
      have hrest' := Nat.lt_of_succ_lt_succ hsteps'
      rw [runOn_visitMethod, hnow] at hrun ⊢
      simp only [searching.next_call hbyte] at hrun ⊢
      cases hcall : ofInstruction c method (p + grown) with
      | error e =>
        simp only [hcall] at hrun ⊢
        cases hrun
        exact ⟨rfl, fun _ _ => rfl, .none fun h => by cases h⟩
      | ok call =>
        simp only [hcall, runOn_recording] at hrun ⊢
        rcases hvisit : visit.runOn (state, call, c) with ⟨result, between, left, after⟩
        simp only [hvisit] at hrun
        have hfinds := Visit.finds_of_searching hold hcall hnow searching hbyte left after
        cases result with
        | error e =>
          cases hrun
          obtain ⟨hothers, -⟩ :=
            (htame _ List.mem_cons_self).searching hcall hnow searching hbyte
          exact ⟨rfl, hothers, .visit hfinds (.none fun h => by cases h)⟩
        | ok u =>
          -- the visit is in the log of the whole search
          have hmem : ⟨call, c, left, after⟩ ∈ log' := by
            obtain ⟨-, added, rfl, -⟩ := (logs_visitMethod method steps left.stop).runOn_eq hrun
            exact List.mem_append_right _ List.mem_cons_self
          obtain ⟨hothers, next, grown', first', hnext, later⟩ :=
            (htame _ hmem).searching hcall hnow searching hbyte
          obtain ⟨hsame, hkept, hfound⟩ := ih later hnext hrest hrest' hrun
          exact ⟨hsame, fun i hi => (hkept i hi).trans (hothers i hi), .visit hfinds hfound⟩
    · -- the instruction is no dynamic call, and the search passes it
      rw [Bytecode.callsAmong_cons_of_other hbyte] at hsteps hsteps' ⊢
      obtain ⟨next, later⟩ := searching.skip hbyte
      exact ih later hnow hsteps hsteps' hrun

end Method

/-! ## Passes over a class -/

section Pass

variable {σ : Type} {visit : Edit (σ × CallSite × ClassFile) Unit} {c₀ c c' : ClassFile}
  {state state' : σ} {log log' : List Visit} {outcome : Except Error Unit}
  {steps steps' : ClassFile → Nat → Nat}

/-- Visits of the search in a method that no visit has changed before. -/
theorem found_of_visitBody {method : Nat}
    (hwalk : ∀ code, c₀.codeAt? method = some code →
      ∃ starts, Bytecode.starts code.bytes = .ok starts)
    (hkept : c.codeAt? method = c₀.codeAt? method)
    (hsteps : (c₀.callsIn method).length < steps c method)
    (hsteps' : (c₀.callsIn method).length < steps' c method)
    (hrun : (visitBody (recording visit) steps method).runOn ((state, log), c) =
      (outcome, (state', log'), c'))
    (htame : ∀ v ∈ log', v.Tame) :
    (visitBody (recording visit) steps' method).runOn ((state, log), c) =
        (outcome, (state', log'), c') ∧
      (∀ i, i ≠ method → c'.codeAt? i = c.codeAt? i) ∧
      Found c₀ (c₀.callsIn method) outcome log log' := by
  rw [runOn_visitBody] at hrun ⊢
  unfold ClassFile.callsIn at hsteps hsteps' ⊢
  cases hold : c₀.codeAt? method with
  | none =>
    obtain ⟨k, hk⟩ := Nat.exists_add_one_eq.mpr (Nat.zero_lt_of_lt hsteps)
    obtain ⟨k', hk'⟩ := Nat.exists_add_one_eq.mpr (Nat.zero_lt_of_lt hsteps')
    rw [hold] at hkept
    rw [← hk, runOn_visitMethod, hkept] at hrun
    rw [← hk', runOn_visitMethod, hkept]
    cases hrun
    exact ⟨rfl, fun _ _ => rfl, .none fun _ => rfl⟩
  | some old =>
    obtain ⟨starts, hstarts⟩ := hwalk old hold
    rw [hold, Option.elim_some, List.length_map, Bytecode.dynamicCalls_of_starts hstarts]
      at hsteps hsteps'
    rw [Option.elim_some, Bytecode.dynamicCalls_of_starts hstarts]
    exact found_of_searching hold (.start (Bytecode.starts_eq_ok_iff.mp hstarts))
      (hkept.trans hold) hsteps hsteps' hrun htame

/-- Visits of the searches in methods that no visit has changed before. -/
theorem found_of_forM {methods : List Nat} (hnodup : methods.Nodup)
    (hwalk : ∀ method code, c₀.codeAt? method = some code →
      ∃ starts, Bytecode.starts code.bytes = .ok starts)
    (hkept : ∀ method ∈ methods, c.codeAt? method = c₀.codeAt? method)
    (hsteps : ∀ now, ∀ method ∈ methods, now.codeAt? method = c₀.codeAt? method →
      (c₀.callsIn method).length < steps now method)
    (hsteps' : ∀ now, ∀ method ∈ methods, now.codeAt? method = c₀.codeAt? method →
      (c₀.callsIn method).length < steps' now method)
    (hrun : (methods.forM (visitBody (recording visit) steps)).runOn ((state, log), c) =
      (outcome, (state', log'), c'))
    (htame : ∀ v ∈ log', v.Tame) :
    (methods.forM (visitBody (recording visit) steps')).runOn ((state, log), c) =
        (outcome, (state', log'), c') ∧
      Found c₀ (methods.flatMap c₀.callsIn) outcome log log' := by
  induction methods generalizing state log c with
  | nil =>
    cases hrun
    exact ⟨rfl, .none fun _ => rfl⟩
  | cons method methods ih =>
    obtain ⟨hfresh, hnodup⟩ := List.nodup_cons.mp hnodup
    have hfirst := hkept method List.mem_cons_self
    rw [Edit.runOn_forM_cons] at hrun ⊢
    rw [List.flatMap_cons]
    rcases hbody : (visitBody (recording visit) steps method).runOn ((state, log), c) with
      ⟨result, ⟨between, mid⟩, next⟩
    rw [hbody] at hrun
    -- the visits of the first method are in the log of the whole pass
    have hmid : ∃ added, log' = added ++ mid := by
      cases result with
      | error e =>
        cases hrun
        exact ⟨[], rfl⟩
      | ok u =>
        obtain ⟨-, added, hlog, -⟩ := (Logs.forM (logs_visitBody steps) methods).runOn_eq hrun
        exact ⟨added, hlog⟩
    obtain ⟨added, hlog⟩ := hmid
    obtain ⟨hsame, hothers, hfound⟩ := found_of_visitBody (hwalk method) hfirst
      (hsteps c method List.mem_cons_self hfirst) (hsteps' c method List.mem_cons_self hfirst) hbody
      fun v hv => htame v (hlog ▸ List.mem_append_right _ hv)
    rw [hsame]
    cases result with
    | error e =>
      cases hrun
      exact ⟨rfl, hfound.fail⟩
    | ok u =>
      have hlater : ∀ i ∈ methods, next.codeAt? i = c₀.codeAt? i := by
        intro i hi
        have hne : i ≠ method := fun h => hfresh (h ▸ hi)
        exact (hothers i hne).trans (hkept i (List.mem_cons_of_mem _ hi))
      obtain ⟨hrest, hall⟩ := ih hnodup hlater
        (fun now i hi => hsteps now i (List.mem_cons_of_mem _ hi))
        (fun now i hi => hsteps' now i (List.mem_cons_of_mem _ hi)) hrun
      exact ⟨hrest, hfound.append hall⟩

end Pass

end CallSite

namespace ClassFile

variable {σ : Type} {visit : Edit (σ × CallSite × ClassFile) Unit} {c c' : ClassFile}
  {state state' : σ} {log : List CallSite.Visit} {outcome : Except Error Unit}

/-- A class has as many dynamic calls as each of its methods, or more. -/
theorem length_callsIn_le {method : Nat} (hmethod : method ∈ List.range c.methods.length) :
    (c.callsIn method).length ≤ c.dynamicCalls.length := by
  unfold dynamicCalls
  rw [List.flatMap_def]
  exact (List.sublist_flatten_of_mem (List.mem_map_of_mem hmethod)).length_le

/-- A search has steps enough for all calls of a body. -/
theorem length_callsIn_lt {now : ClassFile} {method : Nat}
    (hkept : now.codeAt? method = c.codeAt? method) :
    (c.callsIn method).length < CallSite.visitSteps now method := by
  unfold callsIn CallSite.visitSteps
  rw [hkept]
  cases c.codeAt? method with
  | none => exact Nat.succ_pos _
  | some code =>
    rw [Option.elim_some, List.length_map, Option.map_some, Option.getD_some]
    cases hstarts : Bytecode.starts code.bytes with
    | error e =>
      unfold Bytecode.dynamicCalls
      rw [hstarts]
      exact Nat.succ_pos _
    | ok starts =>
      rw [Bytecode.dynamicCalls_of_starts hstarts]
      have hfew := (Bytecode.starts_eq_ok_iff.mp hstarts).add_length_starts_le
      have hcalls := Bytecode.length_callsAmong_le code.bytes starts
      omega

/-- What a pass over a class has done whose visits are in a log. -/
structure Visited (visit : Edit (σ × CallSite × ClassFile) Unit) (state : σ) (c : ClassFile)
    (outcome : Except Error Unit) (log : List CallSite.Visit) (state' : σ) (c' : ClassFile) :
    Prop where
  /-- Without the log, the pass is the same. -/
  run : (editCallSites visit).runOn (state, c) = (outcome, state', c')
  /-- It comes to an end: with any more steps than there are calls, it is the same. -/
  ends : ∀ steps : ClassFile → Nat → Nat,
    (∀ now method, c.dynamicCalls.length < steps now method) →
      (editCallSitesWithin (CallSite.recording visit) steps).runOn ((state, []), c) =
        (outcome, (state', log), c')
  /-- The visits were made to the first calls of the old class, in order. -/
  visits : ∃ met left, c.dynamicCalls = met ++ left ∧
    List.Forall₂ (fun (call : Nat × Nat) v => v.Finds c call.1 call.2) met log.reverse
  /-- They were made to all of them if nothing has failed. -/
  all : outcome = .ok () →
    List.Forall₂ (fun (call : Nat × Nat) v => v.Finds c call.1 call.2) c.dynamicCalls log.reverse

/-- **A pass over a class visits every dynamic call of the old class once.** The visits may
leave their calls alone, or replace them by statements that contain no switch, but maybe
other dynamic calls. Then the pass comes to an end, and if it succeeds, the visits were made
to the calls that the class had before, method by method and in the order of the code, each
with the index of that call. -/
theorem visited_of_editCallSites
    (hwalk : ∀ method code, c.codeAt? method = some code →
      ∃ starts, Bytecode.starts code.bytes = .ok starts)
    (hrun : (editCallSites (CallSite.recording visit)).runOn ((state, []), c) =
      (outcome, (state', log), c'))
    (htame : ∀ v ∈ log, v.Tame) : Visited visit state c outcome log state' c' := by
  rw [editCallSites_eq] at hrun
  obtain ⟨hplain, -⟩ := (logs_editCallSitesWithin CallSite.visitSteps).runOn_eq hrun
  have hfound : ∀ steps : ClassFile → Nat → Nat,
      (∀ now method, c.dynamicCalls.length < steps now method) →
        (editCallSitesWithin (CallSite.recording visit) steps).runOn ((state, []), c) =
          (outcome, (state', log), c') ∧
          CallSite.Found c c.dynamicCalls outcome [] log := by
    intro steps hsteps
    refine CallSite.found_of_forM List.nodup_range hwalk (fun _ _ => rfl)
      (fun _ _ _ hkept => length_callsIn_lt hkept) (fun now method hmethod _ => ?_) hrun htame
    exact Nat.lt_of_le_of_lt (length_callsIn_le hmethod) (hsteps now method)
  obtain ⟨-, met, left, added, hcalls, hlog, hvisits, hall⟩ := hfound
    (fun _ _ => c.dynamicCalls.length + 1) fun _ _ => Nat.lt_succ_self _
  rw [List.append_nil] at hlog
  subst hlog
  refine ⟨hplain, fun steps hsteps => (hfound steps hsteps).1, ⟨met, left, hcalls, hvisits⟩, ?_⟩
  intro hok
  have hmet : c.dynamicCalls = met := by rw [← List.append_nil met, ← hall hok]; exact hcalls
  rw [hmet]
  exact hvisits

end ClassFile

/-! ## Replacing calls by statements that make them -/

namespace CallSite

/-- A compiler that gives the same statement for every text gives that one. -/
theorem compiled_of_constantCompiler {compiled given : CompiledStatement} {call : CallSite}
    {statement : String} {pool : ConstantPool} {code : Code} {owner : String}
    {parameters : List Descriptor} {result : Option Descriptor} {slots : ReplacementSlots}
    (h : (call.compileStatement (constantCompiler compiled) statement pool code owner parameters
      result slots).runOn () = (.ok given, ())) : given = compiled := by
  unfold compileStatement at h
  obtain ⟨_, _, -, h⟩ := (Edit.runOn_bind_eq_ok_iff _).mp h
  obtain ⟨_, _, -, h⟩ := (Edit.runOn_bind_eq_ok_iff _).mp h
  obtain ⟨_, _, -, h⟩ := (Edit.runOn_bind_eq_ok_iff _).mp h
  by_cases hmissing : (result.isSome && !mentionsResult statement.toList) = true
  · simp only [if_pos hmissing] at h
    cases h
  · simp only [if_neg hmissing] at h
    obtain ⟨_, _, -, h⟩ := (Edit.runOn_bind_eq_ok_iff _).mp h
    cases h
    rfl

/-- Replacing a call by a statement without a switch is tame, be it with success or not. -/
theorem Visit.tame_of_makes {compiled : CompiledStatement} {statement : String} {v : Visit}
    (hplain : Bytecode.IsPlain compiled.code)
    (h : Makes (replace (constantCompiler compiled) statement) v) : v.Tame := by
  obtain ⟨state, outcome, state', h⟩ := h
  cases outcome with
  | error e =>
    obtain ⟨hcall, hclass⟩ := eq_of_replace_eq_error h
    exact .alone hcall hclass
  | ok u =>
    refine .replaced h fun r performed => ?_
    obtain ⟨owner, -, hcompiled⟩ := performed.compiled
    rw [compiled_of_constantCompiler hcompiled]
    exact hplain

/-- A statement that makes a call with the first argument and keeps its result. -/
def proceedStatement : CompiledStatement :=
  { code := [0x1c, 0xba, 0, 6, 0, 0, 0x3e], handlers := [], maxStack := 1, maxLocals := 4 }

/-- Replacing every call by this statement. -/
def proceedVisit : Edit (Unit × CallSite × ClassFile) Unit :=
  replace (constantCompiler proceedStatement) "$_ = $proceed($1);"

/-- The class with two calls in a row. -/
def chainedClass : ClassFile :=
  retryClass.withCodeAt 0
    { retryCode with
      bytes := #[0x1a, 0xba, 0, 6, 0, 0, 0xba, 0, 6, 0, 0, 0xac]
      handlers := [] }

end CallSite

/-- The two calls of a class are replaced by statements that make a call themselves, and
no more than two visits are made. -/
theorem ClassFile.visited_of_chainedClass :
    (∀ method code, CallSite.chainedClass.codeAt? method = some code →
      ∃ starts, Bytecode.starts code.bytes = .ok starts) ∧
    CallSite.chainedClass.dynamicCalls = [(0, 1), (0, 6)] ∧ ∃ log c',
      (editCallSites (CallSite.recording CallSite.proceedVisit)).runOn
        (((), []), CallSite.chainedClass) = (.ok (), ((), log), c') ∧
      (∀ v ∈ log, v.Tame) ∧ log.length = 2 ∧
      Visited CallSite.proceedVisit () CallSite.chainedClass (.ok ()) log () c' := by
  have hwalk : ∀ method code, CallSite.chainedClass.codeAt? method = some code →
      ∃ starts, Bytecode.starts code.bytes = .ok starts := by
    intro method code hcode
    cases method with
    | zero =>
      cases hcode
      exact ⟨[0, 1, 6, 11], by decide +kernel⟩
    | succ method => cases hcode
  have hplain : Bytecode.IsPlain CallSite.proceedStatement.code := by
    have hstarts : Bytecode.starts CallSite.proceedStatement.code.toArray = .ok [0, 1, 6] := by
      decide +kernel
    exact ⟨[0, 1, 6], hstarts, by decide⟩
  have hdone : ((editCallSites (CallSite.recording CallSite.proceedVisit)).runOn
      (((), []), CallSite.chainedClass)).1 = .ok () := by decide +kernel
  have hrun := Edit.runOn_eq_of_fst _ hdone
  have htame : ∀ v ∈ ((editCallSites (CallSite.recording CallSite.proceedVisit)).runOn
      (((), []), CallSite.chainedClass)).2.1.2, v.Tame := by
    intro v hv
    obtain ⟨-, added, hlog, hmade⟩ :=
      (logs_editCallSitesWithin CallSite.visitSteps).runOn_eq hrun
    rw [hlog, List.append_nil] at hv
    exact CallSite.Visit.tame_of_makes hplain (hmade v hv)
  refine ⟨hwalk, by decide +kernel, _, _, hrun, htame, by decide +kernel, ?_⟩
  exact visited_of_editCallSites hwalk hrun htame

end JvmClass
