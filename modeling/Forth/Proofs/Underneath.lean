-- SUMMARY: Values underneath the stack: a run that ends without them does the same on top of them.
import Forth.Proofs.Correctness

/-!
# Values underneath the stack

An operation takes what it needs from the top of the stack, counted from the top. If
that succeeds on a stack, it succeeds in the same way with more values underneath, and
leaves these where they are. Only a failure can tell how deep the stack is. So a run
that halts makes the same steps on top of any values.
-/

namespace Forth

/-- The state with the values `under` underneath its stack. -/
def State.above (s : State) (under : List Value) : State :=
  { s with stack := s.stack ++ under }

-- ---------------------------------------------------------------------------
-- Local actions
-- ---------------------------------------------------------------------------

namespace Action

variable {α β : Type}

/-- Whenever the action succeeds, it does the same on top of other values. -/
def Local (a : Action α) : Prop :=
  ∀ s x s', a s = .ok x s' → ∀ under, a (s.above under) = .ok x (s'.above under)

theorem local_pure (x : α) : Local (pure x) := by
  intro s y s' h under
  cases h
  rfl

theorem local_throw (fault : Fault) : Local (throw fault : Action α) :=
  fun _ _ _ h => nomatch h

theorem Local.bind {a : Action α} {f : α → Action β} (ha : a.Local) (hf : ∀ x, (f x).Local) :
    Local (a >>= f) := by
  intro s y s' h under
  cases hr : a s with
  | ok x s₁ =>
    rw [bind_of_ok hr] at h
    rw [bind_of_ok (ha s x s₁ hr under)]
    exact hf x s₁ y s' h under
  | error fault s₁ =>
    rw [bind_of_error hr] at h
    cases h

theorem local_push (v : Value) : (push v).Local := by
  intro s x s' h under
  cases h
  rfl

theorem local_pop : pop.Local := by
  intro s v s' h under
  obtain ⟨stack, vars, output⟩ := s
  cases stack with
  | nil => cases h
  | cons w stack =>
    cases h
    rfl

theorem local_popInt : popInt.Local := by
  apply local_pop.bind
  intro v
  cases v with
  | int n => exact local_pure n
  | void | str s => exact local_throw _

/-- What stands `depth` places below the top of a stack stands there on top of others. -/
theorem local_pick (depth : Nat) : (pick depth).Local := by
  intro s v s' h under
  unfold pick at h ⊢
  cases hget : s.stack[depth]? with
  | none =>
    rw [hget] at h
    cases h
  | some w =>
    rw [hget] at h
    cases h
    have hdepth : depth < s.stack.length := (List.getElem?_eq_some_iff.1 hget).1
    have habove : (s.above under).stack[depth]? = some v :=
      (List.getElem?_append_left hdepth).trans hget
    rw [habove]

theorem local_discard (count : Nat) : (discard count).Local := by
  intro s x s' h under
  unfold discard at h ⊢
  rw [dropExactly?_eq] at h ⊢
  by_cases hcount : count ≤ s.stack.length
  · rw [if_pos hcount] at h
    cases h
    have hlength : count ≤ (s.above under).stack.length :=
      Nat.le_trans hcount (List.length_append ▸ Nat.le_add_right _ _)
    rw [if_pos hlength]
    simp only [State.above, List.drop_append_of_le_length hcount]
  · rw [if_neg hcount] at h
    cases h

theorem local_readVariable (name : String) : (readVariable name).Local := by
  intro s v s' h under
  unfold readVariable at h ⊢
  simp only [State.above]
  cases hget : s.vars.get? name with
  | none =>
    rw [hget] at h
    cases h
  | some w =>
    rw [hget] at h
    cases h
    rfl

theorem local_writeVariable (name : String) (v : Value) : (writeVariable name v).Local := by
  intro s x s' h under
  cases h
  rfl

theorem local_write (text : String) : (write text).Local := by
  intro s x s' h under
  unfold write at h ⊢
  dsimp only [State.above] at h ⊢
  split at h
  · rename_i haccepts
    cases h
    rw [if_pos haccepts]
  · cases h

theorem local_binary {f : Int64 → Int64 → Action Unit} (hf : ∀ a b, (f a b).Local) :
    Local (do let b ← popInt; let a ← popInt; f a b) :=
  local_popInt.bind fun b => local_popInt.bind fun a => hf a b

theorem local_mod : mod.Local := by
  apply local_binary
  intro a b
  split
  · exact local_throw _
  · exact local_push _

theorem local_print : print.Local := by
  apply local_pop.bind
  intro v
  cases v with
  | void => exact local_throw _
  | int n => exact local_write _
  | str s => exact local_write _

theorem Local.next {a : Action Unit} (ha : a.Local) : Local (do a; return Flow.next) :=
  ha.bind fun _ => local_pure _

end Action

-- ---------------------------------------------------------------------------
-- Instructions and runs
-- ---------------------------------------------------------------------------

namespace Image

theorem local_constant (image : Image) (index : Nat) : (image.constant index).Local := by
  unfold constant
  split
  · exact Action.local_pure _
  · exact Action.local_throw _

theorem local_variableName (image : Image) (index : Nat) : (image.variableName index).Local := by
  apply (image.local_constant index).bind
  intro v
  cases v with
  | str name => exact Action.local_pure name
  | void | int n => exact Action.local_throw _

/-- Every operation is local: it sees only the values that it needs. -/
theorem local_execute (image : Image) (argument : Nat) (o : Opcode) :
    (image.execute argument o).Local := by
  cases o with
  | invalid => exact Action.local_throw _
  | ret | call | jump => exact Action.local_pure _
  | push => exact (image.local_constant argument).bind fun v => (Action.local_push v).next
  | jumpIfNot => exact Action.local_pop.bind fun _ => Action.local_pure _
  | print => exact Action.local_print.next
  | add => exact (Action.local_binary fun _ _ => Action.local_push _).next
  | mod => exact Action.local_mod.next
  | dup => exact ((Action.local_pick argument).bind fun v => Action.local_push v).next
  | drop => exact (Action.local_discard argument).next
  | and => exact (Action.local_binary fun _ _ => Action.local_push _).next
  | store =>
    apply (image.local_variableName argument).bind
    intro name
    exact (Action.local_pop.bind fun v => Action.local_writeVariable name v).next
  | fetch =>
    apply (image.local_variableName argument).bind
    intro name
    exact ((Action.local_readVariable name).bind fun v => Action.local_push v).next

theorem local_executeAt (image : Image) (p : Nat) : (image.executeAt p).Local := by
  unfold executeAt
  split
  · exact Action.local_throw _
  · split
    · exact Action.local_throw _
    · exact image.local_execute _ _

end Image

namespace Machine

variable {m m' : Machine} {status : Status} {n : Nat}

def above (m : Machine) (under : List Value) : Machine :=
  { m with state := m.state.above under }

/-- Where a machine goes on does not depend on the values underneath. -/
theorem follow_above (m : Machine) (flow : Flow) (under : List Value) :
    (m.above under).follow flow = ((m.follow flow).1, (m.follow flow).2.above under) := by
  obtain ⟨image, ip, calls, state⟩ := m
  cases flow with
  | next | jump target | enter target => rfl
  | leave => cases calls <;> rfl

/-- A step that does not fail is the same step on top of other values. -/
theorem step_above (h : m.step = (status, m')) (hstatus : ∀ fault, status ≠ .failed fault)
    (under : List Value) : (m.above under).step = (status, m'.above under) := by
  unfold step at h
  cases hr : m.image.executeAt m.ip m.state with
  | error fault s =>
    rw [hr] at h
    cases h
    exact absurd rfl (hstatus fault)
  | ok flow s =>
    rw [hr] at h
    have habove : m.image.executeAt m.ip (m.state.above under) = .ok flow (s.above under) :=
      m.image.local_executeAt m.ip _ _ _ hr under
    have hfollow := follow_above { m with state := s } flow under
    rw [show ({ m with state := s } : Machine).follow flow = (status, m') from h] at hfollow
    unfold step
    simp only [above] at habove ⊢
    rw [habove]
    exact hfollow

/-- A run that does not fail makes the same steps on top of other values. -/
theorem runFor_above (h : m.runFor n = (status, m')) (hstatus : ∀ fault, status ≠ .failed fault)
    (under : List Value) : (m.above under).runFor n = (status, m'.above under) := by
  induction n generalizing m with
  | zero =>
    cases h
    rfl
  | succ n ih =>
    rw [runFor] at h ⊢
    cases hs : m.step with
    | mk status₁ m₁ =>
      rw [hs] at h
      cases status₁ with
      | running =>
        rw [step_above hs (fun _ => Status.noConfusion) under]
        exact ih h
      | halted =>
        cases h
        rw [step_above hs hstatus under]
      | failed fault =>
        cases h
        exact absurd rfl (hstatus fault)

/-- A run that halts halts on top of any other values: it makes the same steps, with the
    same values on top, and leaves the others underneath. -/
theorem halted_above (h : m.runFor n = (.halted, m')) (under : List Value) :
    (m.above under).runFor n = (.halted, m'.above under) ∧
      ∀ k, (m.above under).runFor k = ((m.runFor k).1, (m.runFor k).2.above under) := by
  refine ⟨runFor_above h (fun _ => Status.noConfusion) under, ?_⟩
  intro k
  refine runFor_above (Prod.ext rfl rfl) ?_ under
  intro fault hfault
  -- a run that halts has not failed before
  have hfailed : m.runFor k = (.failed fault, (m.runFor k).2) := Prod.ext hfault rfl
  cases (ended_unique h Status.noConfusion hfailed Status.noConfusion).1

/-- Code that no text has: inside of a call it copies a value from two places below the
    top, and drops two values at once. -/
theorem halted_above_raw_code :
    ∃ m m' : Machine, m.state.stack = [.int 1, .str "a"] ∧ m.runFor 8 = (.halted, m') ∧
      m'.state.stack = [.int 6, .str "a"] ∧
      (m.above [.void, .int 0]).runFor 8 = (.halted, m'.above [.void, .int 0]) := by
  let m : Machine := {
    image := {
      code := #[.pack .call 2, .pack .ret 0, .pack .push 0, .pack .dup 2, .pack .dup 0,
        .pack .drop 2, .pack .add 0, .pack .ret 0]
      constants := #[.int 5] }
    state := { stack := [.int 1, .str "a"] } }
  have hrun : (m.runFor 8).1 = .halted ∧ (m.runFor 8).2.state.stack = [.int 6, .str "a"] := by
    decide +kernel
  have hhalted : m.runFor 8 = (.halted, (m.runFor 8).2) := Prod.ext hrun.1 rfl
  exact ⟨m, _, rfl, hhalted, hrun.2, (halted_above hhalted [.void, .int 0]).1⟩

end Machine

end Forth
