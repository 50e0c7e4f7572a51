-- SUMMARY: Values: a property of all values that actions and instructions keep, and the faults that they raise on such values.
import Forth.Image.Execute

/-!
# Values

No operation makes a value out of nothing: it moves values, copies them, or makes
integers out of integers. So a property of all values of a state is kept by every
action, if integers have it and everything that is pushed. Which faults an action can
raise depends on the property too: only a value that is there can be the wrong one.

Both the property and the faults that are allowed are parameters. What an operation
leads to is stated along with them, for the place where the program goes on.
-/

namespace Forth

/-- All values of a state have a property. -/
structure State.All (P : Value → Prop) (s : State) : Prop where
  stack : ∀ v ∈ s.stack, P v
  vars : ∀ name v, s.vars.get? name = some v → P v

/-- The faults that actions raise when all values have the property `P`. The others are
    those of an image that is not well-formed. -/
def Fault.OfValues (P : Value → Prop) : Fault → Prop
  | underflow | pickUnderflow _ _ | dropUnderflow _ _ => True
  | notAnInteger kind => ∃ v, P v ∧ (∀ n, v ≠ .int n) ∧ v.kind = kind
  | moduloByZero | unsetVariable _ | writeFailed => True
  | voidPrinted => P .void
  | outsideProgram _ | noHandler _ | constantOutOfRange _ | notAName _ => False

/-- The faults that values with the property `P` lead to are allowed. -/
def Admits (P : Value → Prop) (allowed : Fault → Prop) : Prop :=
  ∀ fault : Fault, fault.OfValues P → allowed fault

-- ---------------------------------------------------------------------------
-- Actions
-- ---------------------------------------------------------------------------

namespace Action

variable {α β : Type} {P : Value → Prop} {allowed : Fault → Prop}

/-- The action makes no value without the property `P` and raises only allowed faults. Its
    results satisfy `post`. -/
def Keeps (P : Value → Prop) (allowed : Fault → Prop) (a : Action α) (post : α → Prop) : Prop :=
  ∀ s : State, s.All P →
    match a s with
    | .ok x s' => post x ∧ s'.All P
    | .error fault s' => allowed fault ∧ s'.All P

theorem keeps_pure {x : α} {post : α → Prop} (h : post x) : Keeps P allowed (pure x) post :=
  fun _ hs => ⟨h, hs⟩

theorem keeps_throw {fault : Fault} {post : α → Prop} (h : allowed fault) :
    Keeps P allowed (throw fault) post :=
  fun _ hs => ⟨h, hs⟩

/-- What the first action gives is all that the second one can rely on. -/
theorem Keeps.bind {a : Action α} {f : α → Action β} {mid : α → Prop} {post : β → Prop}
    (ha : a.Keeps P allowed mid) (hf : ∀ x, mid x → (f x).Keeps P allowed post) :
    Keeps P allowed (a >>= f) post := by
  intro s hs
  have h := ha s hs
  cases hr : a s with
  | ok x s' =>
    rw [hr] at h
    rw [bind_of_ok hr]
    exact hf x h.1 s' h.2
  | error fault s' =>
    rw [hr] at h
    rw [bind_of_error hr]
    exact h

theorem Keeps.next {a : Action Unit} {post : Flow → Prop} (ha : a.Keeps P allowed fun _ => True)
    (hpost : post .next) : Keeps P allowed (do a; return Flow.next) post :=
  ha.bind fun _ _ => keeps_pure hpost

theorem keeps_push {v : Value} (hv : P v) : (push v).Keeps P allowed fun _ => True := by
  intro s hs
  exact ⟨trivial, List.forall_mem_cons.2 ⟨hv, hs.stack⟩, hs.vars⟩

theorem keeps_writeVariable (name : String) {v : Value} (hv : P v) :
    (writeVariable name v).Keeps P allowed fun _ => True := by
  intro s hs
  refine ⟨trivial, hs.stack, ?_⟩
  intro other w hw
  by_cases hname : name = other
  · subst hname
    rw [Variables.get?_set_self] at hw
    exact Option.some.inj hw ▸ hv
  · rw [Variables.get?_set_of_ne _ _ hname] at hw
    exact hs.vars other w hw

section Admitted

variable (hP : Admits P allowed)

include hP

theorem keeps_pop : pop.Keeps P allowed P := by
  intro s hs
  unfold pop
  cases hstack : s.stack with
  | nil => exact ⟨hP .underflow trivial, hs⟩
  | cons v stack =>
    obtain ⟨hv, hrest⟩ := List.forall_mem_cons.1 (hstack ▸ hs.stack)
    exact ⟨hv, hrest, hs.vars⟩

/-- The value that is not an integer is one of those with the property. -/
theorem keeps_popInt : popInt.Keeps P allowed fun _ => True := by
  apply (keeps_pop hP).bind
  intro v hv
  cases v with
  | int n => exact keeps_pure trivial
  | void | str s => exact keeps_throw (hP _ ⟨_, hv, fun _ => Value.noConfusion, rfl⟩)

theorem keeps_pick (depth : Nat) : (pick depth).Keeps P allowed P := by
  intro s hs
  unfold pick
  cases hget : s.stack[depth]? with
  | none => exact ⟨hP (.pickUnderflow _ _) trivial, hs⟩
  | some v => exact ⟨hs.stack v (List.mem_of_getElem? hget), hs⟩

theorem keeps_discard (count : Nat) : (discard count).Keeps P allowed fun _ => True := by
  intro s hs
  unfold discard
  cases hdrop : dropExactly? count s.stack with
  | none => exact ⟨hP (.dropUnderflow _ _) trivial, hs⟩
  | some stack =>
    rw [dropExactly?_eq, Option.ite_none_right_eq_some] at hdrop
    cases hdrop.2
    exact ⟨trivial, fun v hv => hs.stack v (List.mem_of_mem_drop hv), hs.vars⟩

theorem keeps_readVariable (name : String) : (readVariable name).Keeps P allowed P := by
  intro s hs
  unfold readVariable
  cases hget : s.vars.get? name with
  | none => exact ⟨hP (.unsetVariable _) trivial, hs⟩
  | some v => exact ⟨hs.vars name v hget, hs⟩

theorem keeps_write (text : String) : (write text).Keeps P allowed fun _ => True := by
  intro s hs
  unfold write
  cases haccepts : s.output.accepts text.toUTF8 with
  | true =>
    simp only [haccepts]
    exact ⟨trivial, hs.stack, hs.vars⟩
  | false =>
    simp only [haccepts]
    exact ⟨hP .writeFailed trivial, hs.stack, hs.vars⟩

/-- Two integers are taken, and the rest is up to what is done with them. -/
theorem keeps_binary {f : Int64 → Int64 → Action Unit}
    (hf : ∀ a b, (f a b).Keeps P allowed fun _ => True) :
    Keeps P allowed (do let b ← popInt; let a ← popInt; f a b) fun _ => True :=
  (keeps_popInt hP).bind fun b _ => (keeps_popInt hP).bind fun a _ => hf a b

theorem keeps_mod (hint : ∀ n, P (.int n)) : mod.Keeps P allowed fun _ => True := by
  apply keeps_binary hP
  intro a b
  split
  · exact keeps_throw (hP .moduloByZero trivial)
  · exact keeps_push (hint (a % b))

theorem keeps_print : print.Keeps P allowed fun _ => True := by
  apply (keeps_pop hP).bind
  intro v hv
  cases v with
  | void => exact keeps_throw (hP .voidPrinted hv)
  | int n | str s => exact keeps_write hP _

end Admitted

end Action

-- ---------------------------------------------------------------------------
-- Operations
-- ---------------------------------------------------------------------------

def Opcode.flows (argument : Nat) : Opcode → List Flow
  | invalid => []
  | ret => [.leave]
  | call => [.enter argument]
  | jump => [.jump argument]
  | jumpIfNot => [.next, .jump argument]
  | _ => [.next]

namespace Image

variable {P : Value → Prop} {allowed : Fault → Prop} {image : Image} {argument : Nat} {o : Opcode}

/-- An operation keeps the property if what it takes out of the pool of constants has it. Its
    result is one of the places that it can lead to. -/
theorem keeps_execute {post : Flow → Prop} (hP : Admits P allowed) (hint : ∀ n, P (.int n))
    (hinvalid : o = .invalid → allowed (.noHandler 0))
    (hconstant : o = .push → (image.constant argument).Keeps P allowed P)
    (hname : o = .store ∨ o = .fetch →
      (image.variableName argument).Keeps P allowed fun _ => True)
    (hpost : ∀ flow ∈ o.flows argument, post flow) :
    (image.execute argument o).Keeps P allowed post := by
  cases o with
  | invalid => exact Action.keeps_throw (hinvalid rfl)
  | ret | call | jump => exact Action.keeps_pure (hpost _ List.mem_cons_self)
  | push =>
    apply (hconstant rfl).bind
    intro v hv
    exact (Action.keeps_push hv).next (hpost _ List.mem_cons_self)
  | jumpIfNot =>
    apply (Action.keeps_pop hP).bind
    intro v _
    apply Action.keeps_pure
    apply hpost
    cases v.isFalse <;> simp [Opcode.flows]
  | print => exact (Action.keeps_print hP).next (hpost _ List.mem_cons_self)
  | add =>
    have hadd := Action.keeps_binary hP fun a b => Action.keeps_push (hint (a + b))
    exact hadd.next (hpost _ List.mem_cons_self)
  | mod => exact (Action.keeps_mod hP hint).next (hpost _ List.mem_cons_self)
  | dup =>
    have hdup := (Action.keeps_pick hP argument).bind fun _ hv => Action.keeps_push hv
    exact hdup.next (hpost _ List.mem_cons_self)
  | drop => exact (Action.keeps_discard hP argument).next (hpost _ List.mem_cons_self)
  | and =>
    have hand := Action.keeps_binary hP fun a b => Action.keeps_push (hint (a &&& b))
    exact hand.next (hpost _ List.mem_cons_self)
  | store =>
    apply (hname (.inl rfl)).bind
    intro name _
    have hstore := (Action.keeps_pop hP).bind fun _ hv => Action.keeps_writeVariable name hv
    exact hstore.next (hpost _ List.mem_cons_self)
  | fetch =>
    apply (hname (.inr rfl)).bind
    intro name _
    have hfetch := (Action.keeps_readVariable hP name).bind fun _ hv => Action.keeps_push hv
    exact hfetch.next (hpost _ List.mem_cons_self)

/-- A constant satisfies `post` if all those in the pool with its index do. -/
theorem keeps_constant {index : Nat} {post : Value → Prop}
    (hnone : image.constant? index = none → allowed (.constantOutOfRange index))
    (hsome : ∀ v, image.constant? index = some v → post v) :
    (image.constant index).Keeps P allowed post := by
  unfold constant
  cases hv : image.constant? index with
  | none => exact Action.keeps_throw (hnone hv)
  | some v => exact Action.keeps_pure (hsome v hv)

/-- Finding the name of a variable changes no value, whatever faults there are. -/
theorem keeps_variableName (index : Nat) :
    (image.variableName index).Keeps P (fun _ => True) fun _ => True := by
  have hconstant : (image.constant index).Keeps P (fun _ => True) fun _ => True :=
    keeps_constant (fun _ => trivial) fun _ _ => trivial
  apply hconstant.bind
  intro v _
  cases v with
  | str name => exact Action.keeps_pure trivial
  | void | int n => exact Action.keeps_throw trivial

/-- If all faults are allowed, nothing is asked of an instruction but that the property holds
    of what it pushes. -/
theorem keeps_executeAt_of_push {address : Nat} {post : Flow → Prop} (hint : ∀ n, P (.int n))
    (hpush : ∀ i v, image.instruction? address = some i → Opcode.ofByte? i.byte = some .push →
      image.constant? i.argument = some v → P v)
    (hpost : ∀ i o, image.instruction? address = some i → Opcode.ofByte? i.byte = some o →
      ∀ flow ∈ o.flows i.argument, post flow) :
    (image.executeAt address).Keeps P (fun _ => True) post := by
  unfold executeAt
  cases hi : image.instruction? address with
  | none => exact Action.keeps_throw trivial
  | some i =>
    cases ho : Opcode.ofByte? i.byte with
    | none =>
      simp only [ho]
      exact Action.keeps_throw trivial
    | some o =>
      simp only [ho]
      refine keeps_execute (fun _ _ => trivial) hint (fun _ => trivial) (fun hop => ?_)
        (fun _ => keeps_variableName i.argument) (hpost i o hi ho)
      exact keeps_constant (fun _ => trivial) fun v => hpush i v hi (hop ▸ ho)

/-- What an instruction leads to does not depend on the values: it is what its operation can
    lead to. -/
theorem exists_of_executeAt {address : Nat} {s s' : State} {flow : Flow}
    (h : image.executeAt address s = .ok flow s') :
    ∃ i o, image.instruction? address = some i ∧ Opcode.ofByte? i.byte = some o ∧
      flow ∈ o.flows i.argument := by
  have hkeeps : (image.executeAt address).Keeps (fun _ => True) (fun _ => True) fun flow =>
      ∃ i o, image.instruction? address = some i ∧ Opcode.ofByte? i.byte = some o ∧
        flow ∈ o.flows i.argument :=
    keeps_executeAt_of_push (fun _ => trivial) (fun _ _ _ _ _ => trivial)
      fun i o hi ho flow hflow => ⟨i, o, hi, ho, hflow⟩
  have hresult := hkeeps s ⟨fun _ _ => trivial, fun _ _ _ => trivial⟩
  rw [h] at hresult
  exact hresult.1

end Image

end Forth
