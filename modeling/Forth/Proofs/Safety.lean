-- SUMMARY: The safety of sessions: which faults loaded programs can raise, and that no value is ever void.
import Forth.Proofs.Layout
import Forth.Proofs.Values

/-!
# The safety of sessions

In a session texts are loaded, values are pushed and programs are run in any
order, and nothing is reset in between. Once a text was loaded, the next
instruction and all open calls lie inside of the code of a well-formed image,
also after a run that failed. So the only faults are those of the program: too
few values, a string in place of an integer, a division by zero, a variable that
was not set, or an output that takes no more.
-/

namespace Forth

-- ---------------------------------------------------------------------------
-- Faults of programs
-- ---------------------------------------------------------------------------

/-- The faults that a program can raise by what it does. -/
def Fault.OfProgram : Fault → Prop
  | underflow | pickUnderflow _ _ | dropUnderflow _ _ => True
  | notAnInteger kind => kind = "string"
  | moduloByZero | unsetVariable _ | writeFailed => True
  | outsideProgram _ | noHandler _ | constantOutOfRange _ | notAName _ | voidPrinted => False

def State.NoVoid (s : State) : Prop :=
  s.All (· ≠ .void)

/-- Without void values, all that can be wrong with a value is that it is a string. -/
theorem admits_ofProgram : Admits (· ≠ .void) Fault.OfProgram := by
  intro fault h
  cases fault with
  | notAnInteger kind =>
    obtain ⟨v, hvoid, hint, rfl⟩ := h
    cases v with
    | void => exact absurd rfl hvoid
    | int n => exact absurd rfl (hint n)
    | str s => rfl
  | voidPrinted => exact h rfl
  | outsideProgram _ | noHandler _ | constantOutOfRange _ | notAName _ => exact h
  | _ => trivial

-- ---------------------------------------------------------------------------
-- Safe instructions
-- ---------------------------------------------------------------------------

/-- Behind the instruction at `p` the program goes on inside of `size` instructions,
    and so it does when a call that the instruction opens returns. -/
def Flow.Stays (size p : Nat) : Flow → Prop
  | .next => p + 1 < size
  | .jump target => target < size
  | .enter target => target < size ∧ p + 1 < size
  | .leave => True

namespace Image

variable {image : Image} {p : Nat} {i : Instruction}

/-- Every instruction lies in a block, and the block inside of the code. -/
theorem WellFormed.exists_block (h : image.WellFormed) (hi : image.instruction? p = some i) :
    ∃ e ∈ image.dictionary.blocks, e.covers p = true ∧ e.finish ≤ image.code.size := by
  have hp : p < image.code.size := (Array.getElem?_eq_some_iff.1 hi).1
  obtain ⟨e, he, hcovers⟩ := h.tiles.exists_covers (Nat.zero_le p) hp
  exact ⟨e, he, hcovers, (h.tiles.bounds he).2⟩

/-- Behind an instruction that is no return there is another one. -/
theorem WellFormed.next_lt (h : image.WellFormed) (hi : image.instruction? p = some i)
    (hne : i.opcode? ≠ some .ret) : p + 1 < image.code.size := by
  obtain ⟨e, he, hcovers, hfinish⟩ := h.exists_block hi
  have hlast : p + 1 ≠ e.finish := fun hlast => hne ((h.returns p i hi).2 ⟨e, he, hlast⟩)
  have hlt : p < e.finish := (Entry.covers_iff.1 hcovers).2
  exact Nat.lt_of_lt_of_le (Nat.lt_of_le_of_ne hlt hlast) hfinish

theorem WellFormed.jump_lt (h : image.WellFormed) (hi : image.instruction? p = some i)
    (hjump : i.opcode? = some .jump ∨ i.opcode? = some .jumpIfNot) :
    i.argument < image.code.size := by
  obtain ⟨e, he, hcovers, hfinish⟩ := h.exists_block hi
  exact Nat.lt_of_lt_of_le (h.jumps p i hi hjump e he hcovers).2 hfinish

theorem WellFormed.call_lt (h : image.WellFormed) (hi : image.instruction? p = some i)
    (hcall : i.opcode? = some .call) : i.argument < image.code.size := by
  obtain ⟨e, he, haddress⟩ := h.calls p i hi hcall
  exact haddress ▸ h.tiles.address_lt he

theorem WellFormed.exists_constant (h : image.WellFormed) (hi : image.instruction? p = some i)
    (huses : i.usesPool = true) : ∃ v, image.constant? i.argument = some v := by
  have hmem : i.argument ∈ image.poolArguments := by
    refine List.mem_map.2 ⟨i, List.mem_filter.2 ⟨?_, huses⟩, rfl⟩
    exact Array.mem_toList_iff.2 (Array.mem_of_getElem? hi)
  rw [h.pool, List.mem_range] at hmem
  exact ⟨_, Array.getElem?_eq_getElem hmem⟩

/-- Wherever an instruction of a well-formed image leads to, code stands there. -/
theorem WellFormed.stays_of_mem_flows (h : image.WellFormed) {o : Opcode} {flow : Flow}
    (hi : image.instruction? p = some i) (ho : i.opcode? = some o)
    (hflow : flow ∈ o.flows i.argument) : flow.Stays image.code.size p := by
  have hnext : o ≠ .ret → p + 1 < image.code.size := fun hne =>
    h.next_lt hi fun hret => hne (Option.some.inj (ho.symm.trans hret))
  cases o with
  | invalid => cases hflow
  | ret =>
    obtain rfl := List.mem_singleton.1 hflow
    trivial
  | call =>
    obtain rfl := List.mem_singleton.1 hflow
    exact ⟨h.call_lt hi ho, hnext Opcode.noConfusion⟩
  | jump =>
    obtain rfl := List.mem_singleton.1 hflow
    exact h.jump_lt hi (.inl ho)
  | jumpIfNot =>
    rcases List.mem_cons.1 hflow with rfl | hflow
    · exact hnext Opcode.noConfusion
    · obtain rfl := List.mem_singleton.1 hflow
      exact h.jump_lt hi (.inr ho)
  | push | print | add | mod | dup | drop | and | store | fetch =>
    obtain rfl := List.mem_singleton.1 hflow
    exact hnext Opcode.noConfusion

/-- Every instruction of a well-formed image is safe: it has no other faults than those of a
    program, makes no value void, and leads to other instructions. -/
theorem WellFormed.keeps_executeAt (h : image.WellFormed) (hp : p < image.code.size) :
    (image.executeAt p).Keeps (· ≠ .void) Fault.OfProgram (Flow.Stays image.code.size p) := by
  obtain ⟨i, hi⟩ : ∃ i, image.instruction? p = some i := ⟨_, Array.getElem?_eq_getElem hp⟩
  obtain ⟨o, hvalid, hopcode⟩ := h.decodes p i hi
  rw [executeAt_of_opcode? hi hopcode]
  refine keeps_execute admits_ofProgram (fun _ => Value.noConfusion)
    (fun hinvalid => absurd hinvalid hvalid) (fun hpush => ?_) (fun hnamed => ?_)
    fun flow => h.stays_of_mem_flows hi hopcode
  · have huses : i.usesPool = true := by rw [Instruction.usesPool, hopcode, hpush]; rfl
    obtain ⟨v, hv⟩ := h.exists_constant hi huses
    rw [constant, hv]
    exact Action.keeps_pure (h.noVoid v (Array.mem_of_getElem? hv))
  · obtain ⟨name, hname⟩ := h.names p i hi (by simpa [hopcode] using hnamed)
    rw [variableName_of_constant? hname]
    exact Action.keeps_pure trivial

end Image

-- ---------------------------------------------------------------------------
-- Safe runs
-- ---------------------------------------------------------------------------

namespace Machine

theorem image_follow (m : Machine) (flow : Flow) : (m.follow flow).2.image = m.image := by
  obtain ⟨image, ip, calls, state⟩ := m
  cases flow with
  | next | jump target | enter target => rfl
  | leave => cases calls <;> rfl

theorem image_step (m : Machine) : m.step.2.image = m.image := by
  unfold step
  cases m.image.executeAt m.ip m.state with
  | error fault s => rfl
  | ok flow s => exact image_follow _ flow

/-- A run leaves the image alone. -/
theorem image_runFor (m : Machine) (n : Nat) : (m.runFor n).2.image = m.image := by
  induction n generalizing m with
  | zero => rfl
  | succ n ih =>
    have hstep := m.image_step
    rw [runFor]
    split
    · rename_i m₁ hm₁
      rw [hm₁] at hstep
      exact (ih m₁).trans hstep
    · exact hstep

/-- A machine that can run: the next instruction and the returns of all open calls lie
    inside of the code, and no value is void. -/
structure Ready (m : Machine) : Prop where
  image : m.image.Built
  ip : m.ip < m.image.code.size
  calls : ∀ address ∈ m.calls, address + 1 < m.image.code.size
  state : m.state.NoVoid

variable {m m' : Machine}

/-- A step keeps a machine ready, also a step that fails. -/
theorem Ready.step (h : m.Ready) :
    m.step.2.Ready ∧ ∀ fault, m.step.1 = .failed fault → fault.OfProgram := by
  have hsafe := h.image.wellFormed.keeps_executeAt h.ip m.state h.state
  unfold Machine.step
  cases hr : m.image.executeAt m.ip m.state with
  | error fault s =>
    rw [hr] at hsafe
    refine ⟨⟨h.image, h.ip, h.calls, hsafe.2⟩, ?_⟩
    intro fault' hfault
    cases hfault
    exact hsafe.1
  | ok flow s =>
    rw [hr] at hsafe
    obtain ⟨hstays, hs⟩ := hsafe
    cases flow with
    | next => exact ⟨⟨h.image, hstays, h.calls, hs⟩, fun _ hf => nomatch hf⟩
    | jump target => exact ⟨⟨h.image, hstays, h.calls, hs⟩, fun _ hf => nomatch hf⟩
    | enter target =>
      refine ⟨⟨h.image, hstays.1, ?_, hs⟩, fun _ hf => nomatch hf⟩
      intro address haddress
      rcases List.mem_cons.1 haddress with rfl | haddress
      · exact hstays.2
      · exact h.calls address haddress
    | leave =>
      obtain ⟨image, ip, calls, state⟩ := m
      cases calls with
      | nil => exact ⟨⟨h.image, h.ip, h.calls, hs⟩, fun _ hf => nomatch hf⟩
      | cons address calls =>
        refine ⟨⟨h.image, h.calls address List.mem_cons_self, ?_, hs⟩, fun _ hf => nomatch hf⟩
        intro other hother
        exact h.calls other (List.mem_cons_of_mem address hother)

/-- A machine that can run stays one for any number of steps, and fails only by what the
    program does. -/
theorem Ready.runFor (h : m.Ready) (n : Nat) :
    (m.runFor n).2.Ready ∧ ∀ fault, (m.runFor n).1 = .failed fault → fault.OfProgram := by
  induction n generalizing m with
  | zero => exact ⟨h, fun _ hf => nomatch hf⟩
  | succ n ih =>
    have hstep := h.step
    rw [Machine.runFor]
    split
    · rename_i m' hm'
      rw [hm'] at hstep
      exact ih hstep.1
    · exact hstep

/-- Without code a run fails at once. -/
theorem runFor_of_image_empty (h : m.image = {}) (n : Nat) : (m.runFor n).2 = m := by
  cases n with
  | zero => rfl
  | succ n =>
    obtain ⟨image, ip, calls, state⟩ := m
    obtain rfl : image = {} := h
    rfl

/-- A machine that has loaded nothing yet. -/
structure Unloaded (m : Machine) : Prop where
  image : m.image = {}
  calls : m.calls = []
  state : m.state.NoVoid

/-- A machine that has loaded nothing does nothing. -/
theorem Unloaded.runFor (h : m.Unloaded) (n : Nat) : (m.runFor n).2 = m :=
  runFor_of_image_empty h.image n

/-- A machine that loads a text is ready. -/
theorem ready_of_load {path source : String} (himage : m.image.Built)
    (hcalls : ∀ address ∈ m.calls, address + 1 < m.image.code.size) (hstate : m.state.NoVoid)
    (h : m.load path source = .ok m') : m'.Ready := by
  obtain ⟨hsize, hip⟩ := bounds_of_load himage h
  have hbuilt := built_of_load himage h
  obtain ⟨_, _, _, -, -, rfl⟩ := exists_phrase_of_load h
  refine ⟨hbuilt, hip, ?_, hstate⟩
  intro address haddress
  exact Nat.lt_of_lt_of_le (hcalls address haddress) hsize

end Machine

-- ---------------------------------------------------------------------------
-- Sessions
-- ---------------------------------------------------------------------------

def Machine.writingTo (m : Machine) (output : Sink) : Machine :=
  { m with state := { m.state with output } }

theorem Machine.Ready.writingTo {m : Machine} (h : m.Ready) (output : Sink) :
    (m.writingTo output).Ready :=
  ⟨h.image, h.ip, h.calls, h.state.stack, h.state.vars⟩

theorem Machine.Unloaded.writingTo {m : Machine} (h : m.Unloaded) (output : Sink) :
    (m.writingTo output).Unloaded :=
  ⟨h.image, h.calls, h.state.stack, h.state.vars⟩

/-- A session that starts with a new machine and ends in the given one. The flag says
    whether a text was loaded. Each run has an output of its own, and ends with the
    program or with a fault. -/
inductive Session : Bool → Machine → Prop where
  | new : Session false {}
  | load {loaded : Bool} {m m' : Machine} {path source : String} :
      Session loaded m → m.load path source = .ok m' → Session true m'
  | refuse {loaded : Bool} {m : Machine} {path source : String} {e : LoadError} :
      Session loaded m → m.load path source = .error e → Session loaded m
  | push {loaded : Bool} {m : Machine} {v : Value} :
      Session loaded m → v ≠ .void → Session loaded (m.perform (Action.push v)).2
  | run {loaded : Bool} {m m' : Machine} {output : Sink} {n : Nat} {status : Status} :
      Session loaded m → (m.writingTo output).runFor n = (status, m') → status ≠ .running →
      Session loaded m'

def Machine.Kept : Bool → Machine → Prop
  | true, m => m.Ready
  | false, m => m.Unloaded

namespace Session

variable {loaded : Bool} {m : Machine}

/-- What a session keeps, from its first request to its last. -/
theorem kept (h : Session loaded m) : m.Kept loaded := by
  induction h with
  | new => exact ⟨rfl, rfl, fun v hv => (nomatch hv), fun name v hv => (nomatch hv)⟩
  | @load loaded m m' path source _ hload ih =>
    cases loaded with
    | true => exact Machine.ready_of_load ih.image ih.calls ih.state hload
    | false =>
      refine Machine.ready_of_load (ih.image ▸ Image.built_empty) ?_ ih.state hload
      intro address haddress
      rw [ih.calls] at haddress
      cases haddress
  | refuse _ _ ih => exact ih
  | @push loaded m v _ hv ih =>
    have hpush : (Action.push v).Keeps (· ≠ .void) Fault.OfProgram fun _ => True :=
      Action.keeps_push hv
    cases loaded with
    | true => exact ⟨ih.image, ih.ip, ih.calls, (hpush m.state ih.state).2⟩
    | false => exact ⟨ih.image, ih.calls, (hpush m.state ih.state).2⟩
  | @run loaded m m' output n status _ hrun _ ih =>
    obtain rfl : m' = ((m.writingTo output).runFor n).2 := by rw [hrun]
    cases loaded with
    | true => exact (ih.writingTo output).runFor n |>.1
    | false =>
      rw [(ih.writingTo output).runFor n]
      exact ih.writingTo output

/-- Once a text was loaded, no run of a session has another fault than those of its
    program. No value is ever void, before, during and after a run. -/
theorem runs_safe (h : Session loaded m) (output : Sink) (n : Nat) :
    ((m.writingTo output).runFor n).2.state.NoVoid ∧
      (loaded = true → ∀ fault, ((m.writingTo output).runFor n).1 = .failed fault →
        fault.OfProgram) := by
  have hkept := h.kept
  cases loaded with
  | true =>
    have hrun := (Machine.Ready.writingTo hkept output).runFor n
    exact ⟨hrun.1.state, fun _ => hrun.2⟩
  | false =>
    have hunloaded := Machine.Unloaded.writingTo hkept output
    refine ⟨?_, fun hloaded => nomatch hloaded⟩
    rw [hunloaded.runFor n]
    exact hunloaded.state

/-- The first run fails inside of a call, which stays open when the next text is
    loaded; then the output takes nothing. -/
theorem runs_safe_with_open_call :
    ∃ m, Session true m ∧ m.calls = [3] ∧
      ((m.writingTo { limit := some 0 }).runFor 2).1 = .failed .writeFailed ∧
      Fault.OfProgram .writeFailed := by
  let loaded : Machine := ({} : Machine).tryLoad ("a", ": f 1 + ; f")
  let pushed : Machine := (loaded.perform (Action.push (.str "x"))).2
  let failed : Machine := ((pushed.writingTo {}).runFor 9).2
  let reloaded : Machine := failed.tryLoad ("b", "\"y\" .")
  have hruns : (({} : Machine).load "a" ": f 1 + ; f").isOk = true ∧
      ((pushed.writingTo {}).runFor 9).1 ≠ .running ∧
      (failed.load "b" "\"y\" .").isOk = true ∧ reloaded.calls = [3] ∧
      ((reloaded.writingTo { limit := some 0 }).runFor 2).1 = .failed .writeFailed := by
    decide +kernel
  obtain ⟨hok, hended, hok', hcalls, hfailed⟩ := hruns
  have hloaded : Session true loaded := .load .new (Machine.load_eq_ok_tryLoad hok)
  have hsession : Session true failed := .run (.push hloaded Value.noConfusion) rfl hended
  have hreloaded : Session true reloaded := .load hsession (Machine.load_eq_ok_tryLoad hok')
  refine ⟨reloaded, hreloaded, hcalls, hfailed, ?_⟩
  exact (runs_safe hreloaded { limit := some 0 } 2).2 rfl .writeFailed hfailed

end Session

end Forth
