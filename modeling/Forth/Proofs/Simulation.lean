-- SUMMARY: Compiled programs do what their texts mean: runs of linked code and evaluations of phrases agree.
import Forth.Proofs.Layout
import Forth.Proofs.Semantics

/-!
# Runs and evaluations

An image realizes a library if it holds the code of every text, with its calls
bound by the dictionary as it was when the text was loaded. On such an image the
machine carries out the code of a phrase just as the phrase is evaluated. One
direction is by induction on the evaluation. For the other one, a run that ends
after `n` instructions can not do more than `n` calls and conditionals, so the
evaluation ends too, and then the first direction says where.
-/

namespace Forth

-- ---------------------------------------------------------------------------
-- Phrases of source texts
-- ---------------------------------------------------------------------------

/-- A primitive statement is one of the table. -/
def Simple.Known : Simple → Prop
  | primitive p => p ∈ Primitive.all
  | _ => True

/-- The primitive statements are those of the table, and no call has the name of
    top-level code. The bodies of definitions do not count. -/
def Phrase.Known : Phrase → Prop
  | done => True
  | simple stmt rest => stmt.Known ∧ rest.Known
  | call name rest => name ≠ Word.topLevel ∧ rest.Known
  | ifThen yes rest => yes.Known ∧ rest.Known
  | ifThenElse yes no rest => yes.Known ∧ no.Known ∧ rest.Known
  | definition _ _ _ rest => rest.Known

namespace Phrase

theorem Known.chosen_ifThen {yes rest : Phrase} (h : (ifThen yes rest).Known) (v : Value) :
    (if v = .int 0 then done else yes).Known := by
  split
  · trivial
  · exact h.1

theorem Known.chosen_ifThenElse {yes no rest : Phrase} (h : (ifThenElse yes no rest).Known)
    (v : Value) : (if v = .int 0 then no else yes).Known := by
  split
  · exact h.2.1
  · exact h.1

theorem length_code_ifThen (yes rest : Phrase) :
    (ifThen yes rest).code.length = yes.code.length + 1 + rest.code.length := by
  simp only [code, List.length_cons, List.length_append]
  omega

theorem length_code_ifThenElse (yes no rest : Phrase) :
    (ifThenElse yes no rest).code.length =
      yes.code.length + 2 + no.code.length + rest.code.length := by
  simp only [code, List.length_cons, List.length_append]
  omega

end Phrase

/-- A phrase is known if no name among its tokens is the name of top-level code. -/
theorem Derives.known {inside : Bool} {ts : List Token} {p : Phrase} (h : Derives inside ts p)
    (hts : ∀ t ∈ ts, ∀ name, t.payload = .identifier name → name ≠ Word.topLevel) : p.Known := by
  induction h with
  | done => trivial
  | literal _ _ ih => exact ⟨trivial, ih fun t ht => hts t (by simp [ht])⟩
  | primitive _ hp _ ih =>
    exact ⟨List.mem_of_find?_eq_some hp, ih fun t ht => hts t (by simp [ht])⟩
  | store _ _ _ _ ih | fetch _ _ _ _ ih => exact ⟨trivial, ih fun t ht => hts t (by simp [ht])⟩
  | call hname _ _ _ ih =>
    exact ⟨hts _ List.mem_cons_self _ hname, ih fun t ht => hts t (by simp [ht])⟩
  | ifThen _ _ _ _ ihyes ihrest =>
    exact ⟨ihyes fun t ht => hts t (by simp [ht]), ihrest fun t ht => hts t (by simp [ht])⟩
  | ifThenElse _ _ _ _ _ _ ihyes ihno ihrest =>
    exact ⟨ihyes fun t ht => hts t (by simp [ht]), ihno fun t ht => hts t (by simp [ht]),
      ihrest fun t ht => hts t (by simp [ht])⟩
  | definition _ _ _ _ _ _ ihrest => exact ihrest fun t ht => hts t (by simp [ht])

-- ---------------------------------------------------------------------------
-- Libraries in images
-- ---------------------------------------------------------------------------

namespace Phrase

variable {p body : Phrase} {name : String}

/-- The body of a name is that of the last definition of it. -/
theorem exists_of_body? (h : p.body? name = some body) :
    ∃ before d behind, p.definitions = before ++ d :: behind ∧ d.name = name ∧ d.body = body ∧
      ∀ e ∈ behind, e.name ≠ name := by
  obtain ⟨d, hd, hbody⟩ := Option.map_eq_some_iff.1 h
  obtain ⟨hname, behind, before, hsplit, hbehind⟩ := List.find?_eq_some_iff_append.1 hd
  refine ⟨before.reverse, d, behind.reverse, ?_, by simpa using hname, hbody, ?_⟩
  · rw [← List.reverse_reverse p.definitions, hsplit]
    simp
  · intro e he
    simpa using hbehind e (List.mem_reverse.1 he)

theorem name_ne_of_body? (h : p.body? name = none) : ∀ d ∈ p.definitions, d.name ≠ name := by
  intro d hd
  rw [body?, Option.map_eq_none_iff, List.find?_eq_none] at h
  simpa using h d (List.mem_reverse.2 hd)

end Phrase

namespace Image

/-- The image holds the code of all texts of the library, and `d` binds the names of
    the library. -/
inductive Realizes (image : Image) : Library → Dictionary → Prop where
  | nil : Realizes image [] {}
  | cons {lib : Library} {d : Dictionary} {p : Phrase} {start : Location} :
      Realizes image lib d → p.Known → (∀ e ∈ p.definitions, e.body.Known) →
      image.Holds (place d (p.words start)) d.nextAddress (opsOf (p.words start)) →
      Realizes image (p :: lib) (place d (p.words start))

variable {image image' : Image} {lib lib' : Library} {d : Dictionary} {name : String}
  {body : Phrase} {address : Nat}

theorem Realizes.mono (h : image.Realizes lib d) (hext : image'.Extends image) :
    image'.Realizes lib d := by
  induction h with
  | nil => exact .nil
  | cons _ hknown hbodies hholds ih => exact .cons ih hknown hbodies (hholds.mono hext)

theorem name_ne_of_mem_words {p : Phrase} {start : Location} {w : Word}
    (hname : name ≠ Word.topLevel) (h : ∀ d ∈ p.definitions, d.name ≠ name)
    (hw : w ∈ p.words start) : w.name ≠ name := by
  rcases List.mem_append.1 hw with hw | hw
  · obtain ⟨d, hd, rfl⟩ := List.mem_map.1 hw
    exact h d hd
  · obtain rfl := List.mem_singleton.1 hw
    exact hname.symm

/-- A name that is bound in the library is bound to the code of its body. -/
theorem Realizes.exists_address (h : image.Realizes lib d) (hname : name ≠ Word.topLevel)
    (hfind : lib.find? name = some (body, lib')) :
    ∃ address d', d.address? name = some address ∧ image.Realizes lib' d' ∧ body.Known ∧
      image.Holds d' address (body.code ++ [.ret]) := by
  induction h with
  | nil => cases hfind
  | @cons lib d p start hlib hknown hbodies hholds ih =>
    rw [Library.find?] at hfind
    cases hbody : p.body? name with
    | none =>
      rw [hbody] at hfind
      obtain ⟨address, d', haddress, hrest⟩ := ih hfind
      refine ⟨address, d', ?_, hrest⟩
      rw [← haddress]
      exact address?_place_of_forall_ne fun w hw =>
        name_ne_of_mem_words hname (Phrase.name_ne_of_body? hbody) hw
    | some body' =>
      rw [hbody] at hfind
      cases hfind
      obtain ⟨before, e, behind, hsplit, rfl, rfl, hbehind⟩ := Phrase.exists_of_body? hbody
      -- the words of the text, split around the word of the definition
      have hwords : p.words start = before.map Definition.word ++ e.word ::
          (behind.map Definition.word ++ [.ofBody Word.topLevel start p.code]) := by
        simp [Phrase.words, Phrase.definedWords, hsplit]
      have hbound : (place d (p.words start)).address? e.name =
          some (d.nextAddress + (opsOf (before.map Definition.word)).length) := by
        rw [hwords]
        refine address?_place (w := e.word) ?_
        intro w hw
        rcases List.mem_append.1 hw with hw | hw
        · obtain ⟨e', he', rfl⟩ := List.mem_map.1 hw
          exact hbehind e' he'
        · obtain rfl := List.mem_singleton.1 hw
          exact hname.symm
      refine ⟨_, _, hbound, .cons hlib hknown hbodies hholds, ?_, ?_⟩
      · exact hbodies e (by rw [hsplit]; simp)
      · rw [congrArg opsOf hwords, opsOf_append, opsOf_cons, holds_append, holds_append] at hholds
        exact hholds.2.1

/-- A name that the dictionary binds is bound in the library. -/
theorem Realizes.exists_find? (h : image.Realizes lib d) (hname : name ≠ Word.topLevel)
    (haddress : d.address? name = some address) :
    ∃ body lib', lib.find? name = some (body, lib') := by
  induction h with
  | nil => cases haddress
  | @cons lib d p start _ _ _ _ ih =>
    rw [Library.find?]
    cases hbody : p.body? name with
    | some body => exact ⟨body, p :: lib, rfl⟩
    | none =>
      apply ih
      rw [← haddress]
      exact (address?_place_of_forall_ne fun w hw =>
        name_ne_of_mem_words hname (Phrase.name_ne_of_body? hbody) hw).symm

-- ---------------------------------------------------------------------------
-- Single instructions
-- ---------------------------------------------------------------------------

theorem Encodes.executeAt {o : Op} {i : Instruction} (h : image.Encodes d address o i)
    (hi : image.instruction? address = some i) (ho : o.opcode ≠ .invalid) :
    image.executeAt address = image.execute i.argument o.opcode :=
  executeAt_of_opcode? hi (h.opcode? ho)

/-- The instruction of a simple statement does what the statement does. -/
theorem Holds.executeAt_simple {stmt : Simple} {ops : List Op}
    (h : image.Holds d address (stmt.op :: ops)) (hknown : stmt.Known) :
    image.executeAt address = (do stmt.action; return .next) := by
  obtain ⟨⟨i, hi, henc⟩, -⟩ := h
  cases stmt with
  | push v =>
    have hconstant : image.constant i.argument = pure v := by
      rw [constant, show image.constant? i.argument = some v from henc.2]
    rw [henc.executeAt hi Opcode.noConfusion]
    change (do Action.push (← image.constant i.argument); return Flow.next) = _
    rw [hconstant]
    rfl
  | primitive p =>
    simp only [Simple.Known, Primitive.all, List.mem_cons, List.not_mem_nil, or_false] at hknown
    rcases hknown with rfl | rfl | rfl | rfl | rfl | rfl | rfl
    all_goals
      rw [henc.executeAt hi Opcode.noConfusion]
      obtain ⟨-, harg⟩ := henc
      simp only [Simple.op] at harg
      rw [harg]
      rfl
  | store name =>
    rw [henc.executeAt hi Opcode.noConfusion]
    change (do Action.store (← image.variableName i.argument); return Flow.next) = _
    rw [variableName_of_constant? henc.2]
    rfl
  | fetch name =>
    rw [henc.executeAt hi Opcode.noConfusion]
    change (do Action.fetch (← image.variableName i.argument); return Flow.next) = _
    rw [variableName_of_constant? henc.2]
    rfl

end Image

namespace Machine

/-- The machine `n` instructions further, in another state. -/
def behind (m : Machine) (n : Nat) (s : State) : Machine :=
  { m with ip := m.ip + n, state := s }

@[simp] theorem behind_image (m : Machine) (n : Nat) (s : State) : (m.behind n s).image = m.image := rfl

@[simp] theorem behind_state (m : Machine) (n : Nat) (s : State) : (m.behind n s).state = s := rfl

theorem behind_behind (m : Machine) (k n : Nat) (s : State) :
    (m.behind k s).behind n = m.behind (k + n) := by
  funext s'
  simp [behind, Nat.add_assoc]

variable {m : Machine} {d : Dictionary} {ops : List Op}

/-- A step runs the action of a statement, and goes on behind it or fails as the action
    does. -/
theorem step_simple {stmt : Simple} (h : m.image.Holds d m.ip (stmt.op :: ops))
    (hknown : stmt.Known) :
    m.step =
      match stmt.action m.state with
      | .ok () s => (.running, m.behind 1 s)
      | .error fault s => (.failed fault, { m with state := s }) := by
  rw [step, h.executeAt_simple hknown]
  cases haction : stmt.action m.state with
  | ok x s =>
    rw [Action.bind_of_ok haction]
    rfl
  | error fault s => rw [Action.bind_of_error haction]

/-- A step of a call goes to the address of the name, and keeps the one to return to. -/
theorem step_call {name : String} (h : m.image.Holds d m.ip (.call name :: ops)) :
    ∃ target, d.address? name = some target ∧
      m.step = (.running, { m with ip := target, calls := m.ip :: m.calls }) := by
  obtain ⟨⟨i, hi, henc⟩, -⟩ := h
  have hexecute := henc.executeAt hi Opcode.noConfusion
  obtain ⟨-, name', hname, haddress⟩ := henc
  obtain rfl := Value.str.inj hname
  refine ⟨i.argument, haddress, ?_⟩
  rw [step, hexecute]
  rfl

/-- A step of a return goes on behind the last call, or halts if there is none. -/
theorem step_ret (h : m.image.Holds d m.ip (.ret :: ops)) :
    m.step =
      match m.calls with
      | [] => (.halted, m)
      | address :: calls => (.running, { m with ip := address + 1, calls }) := by
  obtain ⟨⟨i, hi, henc⟩, -⟩ := h
  rw [step, henc.executeAt hi Opcode.noConfusion]
  rfl

/-- A step of a jump goes forward by its distance. -/
theorem step_jump {distance : Nat} (h : m.image.Holds d m.ip (.jump distance :: ops)) :
    m.step = (.running, m.behind distance m.state) := by
  obtain ⟨⟨i, hi, henc⟩, -⟩ := h
  have hexecute := henc.executeAt hi Opcode.noConfusion
  obtain ⟨-, hargument⟩ := henc
  rw [step, hexecute, show i.argument = m.ip + distance from hargument]
  rfl

/-- A step of a conditional jump pops a value, and goes forward by its distance if the
    value is zero. -/
theorem step_jumpIfNot {distance : Nat} (h : m.image.Holds d m.ip (.jumpIfNot distance :: ops)) :
    m.step =
      match m.state.stack with
      | [] => (.failed .underflow, m)
      | v :: stack =>
        (.running, m.behind (if v = .int 0 then distance else 1) { m.state with stack }) := by
  obtain ⟨⟨i, hi, henc⟩, -⟩ := h
  have hexecute := henc.executeAt hi Opcode.noConfusion
  obtain ⟨-, hargument⟩ := henc
  rw [step, hexecute, show i.argument = m.ip + distance from hargument]
  obtain ⟨image, ip, calls, stack, vars, output⟩ := m
  cases stack with
  | nil => rfl
  | cons v stack =>
    by_cases hv : v = .int 0
    · subst hv
      rfl
    · have hfalse : v.isFalse = false := decide_eq_false hv
      change Machine.follow _ (if v.isFalse = true then .jump (ip + distance) else .next) = _
      rw [hfalse]
      simp only [if_neg hv]
      rfl

-- ---------------------------------------------------------------------------
-- Runs
-- ---------------------------------------------------------------------------

variable {m' : Machine} {exit : State → Machine} {o : Outcome} {k n : Nat}

/-- The run of a machine fails, with these states before and after the instruction
    that fails. -/
def FailsWith (m : Machine) (fault : Fault) (before after : State) : Prop :=
  ∃ n m₁ m₂, m.runFor n = (.running, m₁) ∧ m₁.state = before ∧ m₁.step = (.failed fault, m₂) ∧
    m₂.state = after

/-- A run comes to the machine that `exit` gives for the final state, or it fails. -/
def Leads (m : Machine) (exit : State → Machine) : Outcome → Prop
  | .done s => ∃ n, m.runFor n = (.running, exit s)
  | .failed fault before after => m.FailsWith fault before after

/-- A run that has not ended yet goes on from where it is. -/
theorem runFor_of_running (h : m.runFor k = (.running, m')) (n : Nat) :
    m.runFor (k + n) = m'.runFor n := by
  rw [runFor_add, h]

theorem runFor_one (m : Machine) : m.runFor 1 = m.step := by
  rw [runFor]
  split
  · rename_i m' hstep
    exact hstep.symm
  · rfl

/-- A run that goes on does one more instruction. -/
theorem runFor_succ (h : m.runFor n = (.running, m')) : m.runFor (n + 1) = m'.step :=
  (runFor_of_running h 1).trans m'.runFor_one

theorem FailsWith.of_running {fault : Fault} {before after : State}
    (h : m.runFor k = (.running, m')) (hfails : m'.FailsWith fault before after) :
    m.FailsWith fault before after := by
  obtain ⟨n, m₁, m₂, hrun, hrest⟩ := hfails
  exact ⟨k + n, m₁, m₂, (runFor_of_running h n).trans hrun, hrest⟩

theorem Leads.of_running (h : m.runFor k = (.running, m')) (hleads : m'.Leads exit o) :
    m.Leads exit o := by
  cases o with
  | done s =>
    obtain ⟨n, hrun⟩ := hleads
    exact ⟨k + n, (runFor_of_running h n).trans hrun⟩
  | failed fault before after => exact FailsWith.of_running h hleads

theorem Leads.of_step (h : m.step = (.running, m')) (hleads : m'.Leads exit o) :
    m.Leads exit o :=
  hleads.of_running (m.runFor_one.trans h)

/-- A run that leads to a machine leads to where that machine leads to. -/
theorem Leads.trans {mid : State → Machine} {s : State} (h : m.Leads mid (.done s))
    (h' : (mid s).Leads exit o) : m.Leads exit o := by
  obtain ⟨k, hrun⟩ := h
  exact h'.of_running hrun

theorem leads_fails {fault : Fault} {s : State}
    (h : m.step = (.failed fault, { m with state := s })) :
    m.Leads exit (.failed fault m.state s) :=
  ⟨0, m, _, rfl, rfl, h, rfl⟩

end Machine

-- ---------------------------------------------------------------------------
-- From evaluations to runs
-- ---------------------------------------------------------------------------

/-- Wherever the code of a phrase stands in the image, the machine runs through it
    from the state `s` to the outcome `o`. -/
def Image.Runs (image : Image) (d : Dictionary) (p : Phrase) (s : State) (o : Outcome) : Prop :=
  ∀ m : Machine, m.image = image → m.state = s → image.Holds d m.ip p.code →
    m.Leads (m.behind p.code.length) o

namespace Image

variable {image : Image} {d d' : Dictionary} {address : Nat} {yes no rest : Phrase}

/-- Where a conditional without an `else` stands, the part to run stands behind the jump
    for it, and the rest behind both. -/
theorem holds_ifThen (v : Value) (h : image.Holds d address (Phrase.ifThen yes rest).code) :
    image.Holds d (address + if v = .int 0 then yes.code.length + 1 else 1)
      (if v = .int 0 then Phrase.done else yes).code ∧
      image.Holds d (address + (yes.code.length + 1)) rest.code := by
  obtain ⟨-, h⟩ := h
  rw [holds_append] at h
  constructor
  · split
    · trivial
    · exact h.1
  · rw [Nat.add_comm yes.code.length, ← Nat.add_assoc]
    exact h.2

/-- Where a conditional stands, the part to run stands behind the jump for it. The other
    jump stands behind the first part, and the rest behind the second. -/
theorem holds_ifThenElse (v : Value)
    (h : image.Holds d address (Phrase.ifThenElse yes no rest).code) :
    image.Holds d (address + if v = .int 0 then yes.code.length + 2 else 1)
      (if v = .int 0 then no else yes).code ∧
      image.Holds d (address + (1 + yes.code.length)) (.jump (no.code.length + 1) :: no.code) ∧
      image.Holds d (address + (yes.code.length + 2 + no.code.length)) rest.code := by
  obtain ⟨-, h⟩ := h
  rw [holds_append] at h
  obtain ⟨hyes, hjump, hrest⟩ := h
  rw [holds_append] at hrest
  obtain ⟨hno, hrest⟩ := hrest
  have hlength : address + (yes.code.length + 2) = address + 1 + yes.code.length + 1 := by omega
  refine ⟨?_, ?_, ?_⟩
  · split
    · rw [hlength]
      exact hno
    · exact hyes
  · rw [← Nat.add_assoc]
    exact ⟨hjump, hno⟩
  · rw [← Nat.add_assoc, hlength]
    exact hrest

end Image

namespace Machine

variable {m : Machine} {d d' : Dictionary} {yes no rest body : Phrase} {v : Value}
  {stack : List Value} {o : Outcome}

/-- A call runs through the body and comes back behind the call. -/
theorem leads_call {name : String} {address : Nat} {ops : List Op}
    (hholds : m.image.Holds d m.ip (.call name :: ops)) (haddress : d.address? name = some address)
    (hcode : m.image.Holds d' address (body.code ++ [.ret]))
    (hbody : m.image.Runs d' body m.state o) : m.Leads (m.behind 1) o := by
  obtain ⟨target, htarget, hstep⟩ := step_call hholds
  obtain rfl := Option.some.inj (haddress.symm.trans htarget)
  rw [Image.holds_append] at hcode
  have hleads := hbody { m with ip := address, calls := m.ip :: m.calls } rfl rfl hcode.1
  apply Leads.of_step hstep
  cases o with
  | failed fault before after => exact hleads
  | done s =>
    obtain ⟨k, hrun⟩ := hleads
    -- the body ends in front of its return
    exact ⟨k + 1, (runFor_succ hrun).trans (step_ret hcode.2)⟩

/-- A conditional without an `else` leads to where its chosen part does, behind the
    conditional. -/
theorem leads_ifThen (hholds : m.image.Holds d m.ip (Phrase.ifThen yes rest).code)
    (hstack : m.state.stack = v :: stack)
    (hchosen : m.image.Runs d (if v = .int 0 then .done else yes) { m.state with stack } o) :
    m.Leads (m.behind (yes.code.length + 1)) o := by
  have hstep := step_jumpIfNot hholds
  rw [hstack] at hstep
  have hleads := hchosen _ (behind_image m _ _) rfl (Image.holds_ifThen v hholds).1
  apply Leads.of_step hstep
  rw [behind_behind] at hleads
  by_cases hv : v = .int 0
  · simpa only [if_pos hv, Phrase.code, List.length_nil, Nat.add_zero] using hleads
  · simpa only [if_neg hv, Nat.add_comm 1] using hleads

/-- A conditional leads to where its chosen part does, behind the conditional. -/
theorem leads_ifThenElse (hholds : m.image.Holds d m.ip (Phrase.ifThenElse yes no rest).code)
    (hstack : m.state.stack = v :: stack)
    (hchosen : m.image.Runs d (if v = .int 0 then no else yes) { m.state with stack } o) :
    m.Leads (m.behind (yes.code.length + 2 + no.code.length)) o := by
  have hstep := step_jumpIfNot hholds
  rw [hstack] at hstep
  obtain ⟨hcode, hjump, -⟩ := Image.holds_ifThenElse v hholds
  have hleads := hchosen _ (behind_image m _ _) rfl hcode
  apply Leads.of_step hstep
  rw [behind_behind] at hleads
  by_cases hv : v = .int 0
  · simpa only [if_pos hv] using hleads
  · simp only [if_neg hv] at hleads ⊢
    cases o with
    | failed fault before after => exact hleads
    | done s =>
      -- behind the true part there is a jump over the false part
      obtain ⟨k, hrun⟩ := hleads
      have hskip : (m.behind (1 + yes.code.length) s).step =
          (.running, m.behind (yes.code.length + 2 + no.code.length) s) := by
        rw [step_jump hjump, behind_behind, behind_state]
        congr 2
        omega
      exact ⟨k + 1, (runFor_succ hrun).trans hskip⟩

end Machine

/-- The machine runs through the code of a phrase as the phrase is evaluated. -/
theorem Image.Realizes.runs {image : Image} {lib : Library} {d : Dictionary} {p : Phrase} {s : State}
    {o : Outcome} (hlib : image.Realizes lib d) (hknown : p.Known) (h : Eval lib p s o) :
    image.Runs d p s o := by
  induction h generalizing d with
  | done =>
    rintro m rfl rfl -
    exact ⟨0, rfl⟩
  | @simple lib stmt rest s s' o haction _ ih =>
    rintro m rfl rfl hholds
    have hstep := Machine.step_simple hholds hknown.1
    rw [haction] at hstep
    have hrest := ih hlib hknown.2 (m.behind 1 s') rfl rfl hholds.2
    rw [Machine.behind_behind, Nat.add_comm 1] at hrest
    exact hrest.of_step hstep
  | simpleFails haction =>
    rintro m rfl rfl hholds
    have hstep := Machine.step_simple hholds hknown.1
    rw [haction] at hstep
    exact Machine.leads_fails hstep
  | @call lib lib' name body rest s s' o hfind _ _ ihbody ihrest =>
    rintro m rfl rfl hholds
    obtain ⟨address, d', haddress, hlib', hbody, hcode⟩ := hlib.exists_address hknown.1 hfind
    have hcall := Machine.leads_call hholds haddress hcode (ihbody hlib' hbody)
    have hrest := ihrest hlib hknown.2 (m.behind 1 s') rfl rfl hholds.2
    rw [Machine.behind_behind, Nat.add_comm 1] at hrest
    exact hcall.trans hrest
  | callFails hfind _ ihbody =>
    rintro m rfl rfl hholds
    obtain ⟨address, d', haddress, hlib', hbody, hcode⟩ := hlib.exists_address hknown.1 hfind
    exact Machine.leads_call hholds haddress hcode (ihbody hlib' hbody)
  | @ifThen lib yes rest v stack s s' o hstack _ _ ihchosen ihrest =>
    rintro m rfl rfl hholds
    have hchosen := Machine.leads_ifThen hholds hstack (ihchosen hlib (hknown.chosen_ifThen v))
    have hrest := ihrest hlib hknown.2 (m.behind (yes.code.length + 1) s') rfl rfl
      (holds_ifThen v hholds).2
    rw [Machine.behind_behind, ← Phrase.length_code_ifThen] at hrest
    exact hchosen.trans hrest
  | @ifThenFails lib yes rest v stack fault s before after hstack _ ihchosen =>
    rintro m rfl rfl hholds
    exact Machine.leads_ifThen hholds hstack (ihchosen hlib (hknown.chosen_ifThen v))
  | ifThenUnderflow hstack =>
    rintro m rfl rfl hholds
    have hstep := Machine.step_jumpIfNot hholds
    rw [hstack] at hstep
    exact Machine.leads_fails hstep
  | @ifThenElse lib yes no rest v stack s s' o hstack _ _ ihchosen ihrest =>
    rintro m rfl rfl hholds
    have hchosen := Machine.leads_ifThenElse hholds hstack
      (ihchosen hlib (hknown.chosen_ifThenElse v))
    have hrest := ihrest hlib hknown.2.2 (m.behind (yes.code.length + 2 + no.code.length) s') rfl rfl
      (holds_ifThenElse v hholds).2.2
    rw [Machine.behind_behind, ← Phrase.length_code_ifThenElse] at hrest
    exact hchosen.trans hrest
  | @ifThenElseFails lib yes no rest v stack fault s before after hstack _ ihchosen =>
    rintro m rfl rfl hholds
    exact Machine.leads_ifThenElse hholds hstack (ihchosen hlib (hknown.chosen_ifThenElse v))
  | ifThenElseUnderflow hstack =>
    rintro m rfl rfl hholds
    have hstep := Machine.step_jumpIfNot hholds
    rw [hstack] at hstep
    exact Machine.leads_fails hstep
  | definition _ ih => exact ih hlib hknown

-- ---------------------------------------------------------------------------
-- From runs to evaluations
-- ---------------------------------------------------------------------------

namespace Machine

variable {m m' : Machine} {k n : Nat} {s : State}

/-- A run that has ended stays as it is. -/
theorem runFor_of_ended (h : (m.runFor n).1 ≠ .running) (k : Nat) :
    m.runFor (n + k) = m.runFor n := by
  rw [runFor_add]
  split
  · rename_i m₁ hrun
    rw [hrun] at h
    exact absurd rfl h
  · rfl

/-- A run that ends within `n` instructions and has come to `m'` ends from there. -/
theorem ends_of_running (h : m.runFor k = (.running, m')) (hends : (m.runFor n).1 ≠ .running) :
    ∃ j, n = k + (j + 1) ∧ (m'.runFor (j + 1)).1 ≠ .running := by
  have hlt : k < n := by
    apply Nat.lt_of_not_le
    intro hle
    obtain ⟨j, rfl⟩ := Nat.le.dest hle
    rw [← runFor_of_ended hends j, h] at hends
    exact hends rfl
  obtain ⟨j, rfl⟩ := Nat.exists_eq_add_of_lt hlt
  rw [Nat.add_assoc, runFor_of_running h] at hends
  exact ⟨j, Nat.add_assoc k j 1, hends⟩

/-- A run that ends within some steps ends within fewer from its second step on. -/
theorem ends_of_step (h : m.step = (.running, m')) (hends : (m.runFor n).1 ≠ .running) :
    ∃ j < n, (m'.runFor j).1 ≠ .running := by
  obtain ⟨j, rfl, hj⟩ := ends_of_running (m.runFor_one.trans h) hends
  exact ⟨j + 1, Nat.lt_add_of_pos_left Nat.one_pos, hj⟩

/-- Code that is not empty takes at least one instruction. -/
theorem ends_of_leads {length : Nat} (h : m.Leads (m.behind (length + 1)) (.done s))
    (hends : (m.runFor n).1 ≠ .running) :
    ∃ j < n, ((m.behind (length + 1) s).runFor j).1 ≠ .running := by
  obtain ⟨k, hrun⟩ := h
  obtain ⟨j, rfl, hj⟩ := ends_of_running hrun hends
  refine ⟨j + 1, Nat.lt_add_of_pos_left ?_, hj⟩
  cases k with
  | succ k => exact Nat.succ_pos k
  | zero =>
    have hip : m.ip = m.ip + (length + 1) := congrArg (·.2.ip) hrun
    omega

end Machine

/-- If a run through the code of a phrase ends, then so does the evaluation. -/
theorem Image.Realizes.exists_eval {lib : Library} {d : Dictionary} {p : Phrase} (m : Machine)
    {n : Nat} (hlib : m.image.Realizes lib d) (hknown : p.Known)
    (hholds : m.image.Holds d m.ip p.code) (hends : (m.runFor n).1 ≠ .running) :
    ∃ o, Eval lib p m.state o := by
  -- every statement takes an instruction, but a definition takes none
  induction n using Nat.strongRecOn generalizing p m lib d with
  | ind n ih =>
    induction p with
    | done => exact ⟨_, .done⟩
    | simple stmt rest _ =>
      have hstep := Machine.step_simple hholds hknown.1
      cases haction : stmt.action m.state with
      | error fault s => exact ⟨_, .simpleFails haction⟩
      | ok x s =>
        rw [haction] at hstep
        obtain ⟨j, hlt, hj⟩ := Machine.ends_of_step hstep hends
        obtain ⟨o, hrest⟩ := ih j hlt (m.behind 1 s) hlib hknown.2 hholds.2 hj
        exact ⟨o, .simple haction hrest⟩
    | call name rest _ =>
      obtain ⟨target, htarget, hstep⟩ := Machine.step_call hholds
      obtain ⟨body, lib', hfind⟩ := hlib.exists_find? hknown.1 htarget
      obtain ⟨address, d', haddress, hlib', hbody, hcode⟩ := hlib.exists_address hknown.1 hfind
      obtain rfl := Option.some.inj (haddress.symm.trans htarget)
      obtain ⟨j, hlt, hj⟩ := Machine.ends_of_step hstep hends
      obtain ⟨o, heval⟩ := ih j hlt { m with ip := address, calls := m.ip :: m.calls } hlib'
        hbody (holds_append.1 hcode).1 hj
      cases o with
      | failed fault before after => exact ⟨_, .callFails hfind heval⟩
      | done s =>
        have hleads := Machine.leads_call hholds haddress hcode (hlib'.runs hbody heval)
        obtain ⟨j, hlt, hj⟩ := Machine.ends_of_leads hleads hends
        obtain ⟨o, hrest⟩ := ih j hlt (m.behind 1 s) hlib hknown.2 hholds.2 hj
        exact ⟨o, .call hfind heval hrest⟩
    | ifThen yes rest _ _ =>
      have hstep := Machine.step_jumpIfNot hholds
      cases hstack : m.state.stack with
      | nil => exact ⟨_, .ifThenUnderflow hstack⟩
      | cons v stack =>
        rw [hstack] at hstep
        obtain ⟨hcode, hrest⟩ := holds_ifThen v hholds
        have hchosen := hknown.chosen_ifThen v
        obtain ⟨j, hlt, hj⟩ := Machine.ends_of_step hstep hends
        obtain ⟨o, heval⟩ := ih j hlt (m.behind _ _) hlib hchosen hcode hj
        cases o with
        | failed fault before after => exact ⟨_, .ifThenFails hstack heval⟩
        | done s =>
          have hleads := Machine.leads_ifThen hholds hstack (hlib.runs hchosen heval)
          obtain ⟨j, hlt, hj⟩ := Machine.ends_of_leads hleads hends
          obtain ⟨o, hrest⟩ := ih j hlt (m.behind _ s) hlib hknown.2 hrest hj
          exact ⟨o, .ifThen hstack heval hrest⟩
    | ifThenElse yes no rest _ _ _ =>
      have hstep := Machine.step_jumpIfNot hholds
      cases hstack : m.state.stack with
      | nil => exact ⟨_, .ifThenElseUnderflow hstack⟩
      | cons v stack =>
        rw [hstack] at hstep
        obtain ⟨hcode, -, hrest⟩ := holds_ifThenElse v hholds
        have hchosen := hknown.chosen_ifThenElse v
        obtain ⟨j, hlt, hj⟩ := Machine.ends_of_step hstep hends
        obtain ⟨o, heval⟩ := ih j hlt (m.behind _ _) hlib hchosen hcode hj
        cases o with
        | failed fault before after => exact ⟨_, .ifThenElseFails hstack heval⟩
        | done s =>
          have hleads := Machine.leads_ifThenElse hholds hstack (hlib.runs hchosen heval)
          have hlength : yes.code.length + 2 + no.code.length =
              yes.code.length + no.code.length + 1 + 1 := by omega
          rw [hlength] at hleads hrest
          obtain ⟨j, hlt, hj⟩ := Machine.ends_of_leads hleads hends
          obtain ⟨o, hrest⟩ := ih j hlt (m.behind _ s) hlib hknown.2.2 hrest hj
          exact ⟨o, .ifThenElse hstack heval hrest⟩
    | definition location name body rest _ ihrest =>
      obtain ⟨o, hrest⟩ := ihrest hknown hholds
      exact ⟨o, .definition hrest⟩

end Forth
