-- SUMMARY: Relocation: the same code at other addresses and with other constants does the same.
import Forth.Proofs.Safety
import Mathlib.Data.List.Forall2

/-!
# Relocation

The same ops can be linked into two images, at other addresses and with their
constants at other places of the pool. A function `f` on addresses says where the
code of the first image stands in the second one. If calls and jumps lead to the
corresponding places, then both machines run in step: after any number of
instructions they have the same status and the same state.
-/

namespace Forth

-- ---------------------------------------------------------------------------
-- Moved instructions
-- ---------------------------------------------------------------------------

/-- The argument of an operation when addresses move along `f` and constants by `pool`
    indices. -/
def Opcode.moved (f : Nat → Nat) (pool argument : Nat) : Opcode → Nat
  | call | jump | jumpIfNot => f argument
  | push | store | fetch => argument + pool
  | _ => argument

namespace Instruction

def movedArgument (f : Nat → Nat) (pool : Nat) (i : Instruction) : Nat :=
  i.opcode?.elim i.argument (Opcode.moved f pool i.argument)

/-- `i'` is the instruction `i`, moved. -/
def MovedBy (i' : Instruction) (f : Nat → Nat) (pool : Nat) (i : Instruction) : Prop :=
  i'.byte = i.byte ∧ i'.argument = i.movedArgument f pool

variable {f : Nat → Nat} {pool argument : Nat} {o : Opcode} {i i' : Instruction}

theorem opcode?_pack (o : Opcode) (argument : Nat) :
    (pack o argument).opcode? = Opcode.ofByte? o.byte := by
  rw [opcode?, byte_pack]

theorem movedArgument_of_opcode? (h : i.opcode? = some o) :
    i.movedArgument f pool = o.moved f pool i.argument := by
  rw [movedArgument, h]
  rfl

theorem movedArgument_pack (h : argument ≤ argumentLimit) :
    (pack o argument).movedArgument f pool = o.moved f pool argument := by
  rw [movedArgument, opcode?_pack, argument_pack h]
  cases o <;> rfl

/-- An instruction with the moved argument is the moved instruction, if both arguments
    fit. -/
theorem movedBy_pack (h : argument ≤ argumentLimit) (h' : o.moved f pool argument ≤ argumentLimit) :
    (pack o (o.moved f pool argument)).MovedBy f pool (pack o argument) := by
  refine ⟨by rw [byte_pack, byte_pack], ?_⟩
  rw [argument_pack h', movedArgument_pack h]

theorem MovedBy.opcode?_eq (h : i'.MovedBy f pool i) : i'.opcode? = i.opcode? :=
  congrArg Opcode.ofByte? h.1

end Instruction

-- ---------------------------------------------------------------------------
-- Moved words
-- ---------------------------------------------------------------------------

/-- The entry of the same word `base` addresses further. -/
def Entry.moved (base : Nat) (e : Entry) : Entry :=
  { e with address := e.address + base }

/-- Words placed further on have the same entries, moved. -/
theorem entriesFrom_add (address base : Nat) (ws : List Word) :
    entriesFrom (address + base) ws = (entriesFrom address ws).map (Entry.moved base) := by
  induction ws generalizing address with
  | nil => rfl
  | cons w ws ih =>
    rw [entriesFrom, Nat.add_right_comm, ih]
    rfl

namespace Image

/-- Behind other words, the entries of placed words are those that they have on their
    own, moved. -/
theorem entries_place (d : Dictionary) (ws : List Word) :
    (place d ws).entries =
      (place {} ws).entries.map (Entry.moved d.nextAddress) ++ d.entries := by
  have hmoved := entriesFrom_add 0 d.nextAddress ws
  rw [Nat.zero_add] at hmoved
  simp [place_eq, hmoved, List.map_reverse]

/-- A name is bound by the words that are placed last, or else by those in front. -/
theorem address?_place_or (d : Dictionary) (ws : List Word) (name : String) :
    (place d ws).address? name =
      (((place {} ws).address? name).map (· + d.nextAddress)).or (d.address? name) := by
  simp only [Dictionary.address?, Dictionary.find?]
  rw [entries_place, List.find?_append, List.find?_map, Option.map_or, Option.map_map,
    Option.map_map]
  rfl

end Image

-- ---------------------------------------------------------------------------
-- Linking at two places
-- ---------------------------------------------------------------------------

/-- The op leads to corresponding places when it stands at `address` with calls bound by
    `d`, and at `address'` with calls bound by `d'`. -/
structure Op.Corresponds (o : Op) (f : Nat → Nat) (d d' : Dictionary) (address address' : Nat) :
    Prop where
  call : o.opcode = .call → ∀ name, o.datum = .str name →
    d'.address? name = (d.address? name).map f
  jump : o.opcode = .jump ∨ o.opcode = .jumpIfNot → f (address + o.arg) = address' + o.arg

/-- An op that leads to corresponding places has an argument in both or in none, and the
    one is the other moved. -/
theorem Op.Corresponds.argument? {o : Op} {f : Nat → Nat} {d d' : Dictionary}
    {address address' : Nat} (h : o.Corresponds f d d' address address') (pool shift : Nat) :
    o.argument? d' (pool + shift) address' =
      (o.argument? d pool address).map (o.opcode.moved f shift ·) := by
  unfold Op.argument?
  cases hopcode : o.opcode with
  | call =>
    cases hdatum : o.datum with
    | str name => exact h.call hopcode name hdatum
    | void | int n => rfl
  | jump => exact congrArg some (h.jump (.inl hopcode)).symm
  | jumpIfNot => exact congrArg some (h.jump (.inr hopcode)).symm
  | _ => rfl

/-- Ops that stand one behind the other lead to corresponding places. -/
def Correspond (f : Nat → Nat) (d d' : Dictionary) (address address' : Nat) (ops : List Op) :
    Prop :=
  ∀ (k : Nat) (o : Op), ops[k]? = some o → o.Corresponds f d d' (address + k) (address' + k)

theorem Correspond.cons {f : Nat → Nat} {d d' : Dictionary} {address address' : Nat} {o : Op}
    {ops : List Op} (h : Correspond f d d' address address' (o :: ops)) :
    o.Corresponds f d d' address address' ∧ Correspond f d d' (address + 1) (address' + 1) ops := by
  refine ⟨h 0 o rfl, fun k o' ho' => ?_⟩
  rw [Nat.add_right_comm, Nat.add_right_comm address']
  exact h (k + 1) o' ho'

namespace Linked

variable {f : Nat → Nat} {d d' : Dictionary} {pool shift address address' : Nat} {ops : List Op}
  {code code' : List Instruction} {data data' : List Value}

/-- The same ops become the same code at another place, moved. -/
theorem moved (h : Linked d pool address ops code data)
    (h' : Linked d' (pool + shift) address' ops code' data')
    (hops : Correspond f d d' address address' ops) :
    List.Forall₂ (·.MovedBy f shift ·) code' code := by
  induction h generalizing address' code' data' with
  | nil =>
    cases h'
    exact .nil
  | @cons pool address argument o ops code data harg hlimit _ ih =>
    cases h' with
    | cons harg' hlimit' hrest' =>
      obtain ⟨ho, hops⟩ := hops.cons
      rw [ho.argument? pool shift, harg] at harg'
      obtain rfl := Option.some.inj harg'
      rw [Nat.add_right_comm] at hrest'
      exact .cons (Instruction.movedBy_pack hlimit hlimit') (ih hrest' hops)

/-- Ops that can be linked at one place can be linked at another one with arguments that
    are not larger. -/
theorem exists_unmoved (h' : Linked d' (pool + shift) address' ops code' data)
    (hops : Correspond f d d' address address' ops)
    (hf : ∀ address, address ≤ f address) : ∃ code, Linked d pool address ops code data := by
  induction ops generalizing pool address address' code' data with
  | nil =>
    cases h'
    exact ⟨[], .nil⟩
  | cons o ops ih =>
    cases h' with
    | @cons _ _ argument' _ _ code' data harg' hlimit' hrest' =>
      obtain ⟨ho, hops⟩ := hops.cons
      rw [ho.argument? pool shift] at harg'
      obtain ⟨argument, harg, rfl⟩ := Option.map_eq_some_iff.1 harg'
      have hle : argument ≤ o.opcode.moved f shift argument := by
        unfold Opcode.moved
        split
        all_goals first | exact hf _ | exact Nat.le_add_right _ _ | exact Nat.le_refl _
      rw [Nat.add_right_comm] at hrest'
      obtain ⟨code, hrest⟩ := ih hrest' hops
      exact ⟨_, .cons harg (Nat.le_trans hle hlimit') hrest⟩

end Linked

-- ---------------------------------------------------------------------------
-- Running at two places
-- ---------------------------------------------------------------------------

def Flow.moved (f : Nat → Nat) : Flow → Flow
  | .next => .next
  | .jump target => .jump (f target)
  | .enter target => .enter (f target)
  | .leave => .leave

namespace Image

/-- All code and constants of `image` are in `image'` too: the code at the places that
    `f` gives, and the constants `pool` indices further. Code that goes on behind its
    place does so in both images. -/
structure MovedBy (image' : Image) (f : Nat → Nat) (pool : Nat) (image : Image) : Prop where
  instruction : ∀ {p i}, image.instruction? p = some i →
    ∃ i', image'.instruction? (f p) = some i' ∧ i'.MovedBy f pool i
  constant : ∀ {k v}, image.constant? k = some v → image'.constant? (k + pool) = some v
  next : ∀ {p i}, image.instruction? p = some i → i.opcode? ≠ some .ret → f (p + 1) = f p + 1

variable {image image' : Image} {f : Nat → Nat} {pool p : Nat}

/-- A constant is the same at its new index. -/
theorem MovedBy.constant_eq {k : Nat} {v : Value} (h : image'.MovedBy f pool image)
    (hv : image.constant? k = some v) : image'.constant (k + pool) = image.constant k := by
  rw [Image.constant, Image.constant, h.constant hv, hv]

/-- The moved instruction does what the instruction does, and goes on at the
    corresponding place. -/
theorem MovedBy.executeAt (h : image'.MovedBy f pool image) (hwf : image.WellFormed)
    (hp : p < image.code.size) :
    image'.executeAt (f p) = Flow.moved f <$> image.executeAt p := by
  obtain ⟨i, hi⟩ : ∃ i, image.instruction? p = some i := ⟨_, Array.getElem?_eq_getElem hp⟩
  obtain ⟨o, hvalid, ho⟩ := hwf.decodes p i hi
  obtain ⟨i', hi', hmoved⟩ := h.instruction hi
  have ho' : i'.opcode? = some o := hmoved.opcode?_eq.trans ho
  have huses : o.usesPool = true → ∃ v, image.constant? i.argument = some v := fun huses =>
    hwf.exists_constant hi (by rwa [Instruction.usesPool, ho])
  rw [executeAt_of_opcode? hi ho, executeAt_of_opcode? hi' ho', hmoved.2,
    Instruction.movedArgument_of_opcode? ho]
  cases o with
  | invalid => exact absurd rfl hvalid
  | ret | call | jump => rfl
  | push =>
    obtain ⟨v, hv⟩ := huses rfl
    simp only [execute, Opcode.moved, h.constant_eq hv, map_bind, map_pure]
    rfl
  | store | fetch =>
    obtain ⟨v, hv⟩ := huses rfl
    simp only [execute, Opcode.moved, variableName, h.constant_eq hv, map_bind, map_pure]
    rfl
  | jumpIfNot =>
    simp only [execute, Opcode.moved, map_bind, map_pure]
    refine bind_congr fun v => ?_
    cases v.isFalse <;> rfl
  | print | add | mod | dup | drop | and =>
    simp only [execute, Opcode.moved, map_bind, map_pure]
    rfl

/-- Only a return does not go on behind its place, or come back there. -/
theorem MovedBy.next_of_ne_leave {flow : Flow} {s s' : State} (h : image'.MovedBy f pool image)
    (hp : p < image.code.size) (hflow : image.executeAt p s = .ok flow s') (hne : flow ≠ .leave) :
    f (p + 1) = f p + 1 := by
  obtain ⟨i, hi⟩ : ∃ i, image.instruction? p = some i := ⟨_, Array.getElem?_eq_getElem hp⟩
  refine h.next hi fun hret => hne ?_
  rw [executeAt_of_opcode? hi hret] at hflow
  cases hflow
  rfl

end Image

namespace Machine

/-- Both machines are at the same place of the same code, which stands at the places
    that `f` gives in `m'`. -/
structure MovedBy (m' : Machine) (f : Nat → Nat) (pool : Nat) (m : Machine) : Prop where
  image : m'.image.MovedBy f pool m.image
  ip : m'.ip = f m.ip
  calls : m'.calls = m.calls.map f
  returns : ∀ address ∈ m.calls, f (address + 1) = f address + 1
  state : m'.state = m.state

variable {m m' : Machine} {f : Nat → Nat} {pool : Nat}

/-- Both machines go on to corresponding places. -/
theorem MovedBy.follow {flow : Flow} (h : m'.MovedBy f pool m)
    (hnext : flow ≠ .leave → f (m.ip + 1) = f m.ip + 1) :
    (m'.follow (flow.moved f)).1 = (m.follow flow).1 ∧
      (m'.follow (flow.moved f)).2.MovedBy f pool (m.follow flow).2 := by
  obtain ⟨image, ip, calls, state⟩ := m
  obtain ⟨image', ip', calls', state'⟩ := m'
  obtain ⟨himage, hip, hcalls, hreturns, hstate⟩ := h
  dsimp only at himage hip hcalls hreturns hstate hnext
  subst hip hcalls hstate
  cases flow with
  | next => exact ⟨rfl, himage, (hnext Flow.noConfusion).symm, rfl, hreturns, rfl⟩
  | jump target => exact ⟨rfl, himage, rfl, rfl, hreturns, rfl⟩
  | enter target =>
    refine ⟨rfl, himage, rfl, rfl, ?_, rfl⟩
    exact List.forall_mem_cons.2 ⟨hnext Flow.noConfusion, hreturns⟩
  | leave =>
    cases calls with
    | nil => exact ⟨rfl, himage, rfl, rfl, hreturns, rfl⟩
    | cons address calls =>
      obtain ⟨hreturn, hreturns⟩ := List.forall_mem_cons.1 hreturns
      exact ⟨rfl, himage, hreturn.symm, rfl, hreturns, rfl⟩

/-- Both machines take the same step. -/
theorem MovedBy.step (h : m'.MovedBy f pool m) (hready : m.Ready) :
    m'.step.1 = m.step.1 ∧ m'.step.2.MovedBy f pool m.step.2 := by
  have hexecute : m'.image.executeAt m'.ip m'.state =
      (Flow.moved f <$> m.image.executeAt m.ip) m.state := by
    rw [h.ip, h.state, h.image.executeAt hready.image.wellFormed hready.ip]
  unfold Machine.step
  cases hr : m.image.executeAt m.ip m.state with
  | error fault s =>
    rw [hexecute, Action.map_of_error hr]
    exact ⟨rfl, h.image, h.ip, h.calls, h.returns, rfl⟩
  | ok flow s =>
    have hstate : { m' with state := s }.MovedBy f pool { m with state := s } :=
      ⟨h.image, h.ip, h.calls, h.returns, rfl⟩
    rw [hexecute, Action.map_of_ok hr]
    exact hstate.follow (h.image.next_of_ne_leave hready.ip hr)

/-- Both machines run in step. -/
theorem MovedBy.runFor (h : m'.MovedBy f pool m) (hready : m.Ready) (n : Nat) :
    (m'.runFor n).1 = (m.runFor n).1 ∧ (m'.runFor n).2.MovedBy f pool (m.runFor n).2 := by
  induction n generalizing m m' with
  | zero => exact ⟨rfl, h⟩
  | succ n ih =>
    have hstep := h.step hready
    have hnext := hready.step.1
    rw [Machine.runFor, Machine.runFor]
    generalize m.step = ended at hstep hnext ⊢
    generalize m'.step = ended' at hstep ⊢
    obtain ⟨status, m₁⟩ := ended
    obtain ⟨status', m₁'⟩ := ended'
    obtain ⟨rfl, hmoved⟩ : status' = status ∧ m₁'.MovedBy f pool m₁ := hstep
    cases status' with
    | running => exact ih hmoved hnext
    | halted | failed fault => exact ⟨rfl, hmoved⟩

theorem MovedBy.writingTo (h : m'.MovedBy f pool m) (output : Sink) :
    (m'.writingTo output).MovedBy f pool (m.writingTo output) :=
  ⟨h.image, h.ip, h.calls, h.returns, by rw [Machine.writingTo, Machine.writingTo, h.state]⟩

end Machine

-- ---------------------------------------------------------------------------
-- Machines that only load
-- ---------------------------------------------------------------------------

/-- The machines that have loaded texts and have run nothing. -/
inductive Machine.Unrun : Machine → Prop where
  | new : Unrun {}
  | load {m m' : Machine} {path source : String} :
      Unrun m → m.load path source = .ok m' → Unrun m'

namespace Machine.Unrun

variable {m m' : Machine} {path source : String}

theorem kept (h : m.Unrun) : m.image.Built ∧ m.calls = [] ∧ m.state = {} := by
  induction h with
  | new => exact ⟨Image.built_empty, rfl, rfl⟩
  | load _ hload ih =>
    obtain ⟨_, _, _, -, -, rfl⟩ := exists_phrase_of_load hload
    exact ⟨built_of_load ih.1 hload, ih.2⟩

/-- The blocks of a machine that has run nothing end where its code does. -/
theorem nextAddress_eq (h : m.Unrun) : m.image.dictionary.nextAddress = m.image.code.size :=
  Dictionary.nextAddress_of_tiles h.kept.1.tiles

/-- A machine that has loaded a text and has run nothing can run. -/
theorem ready_of_load (h : m.Unrun) (hload : m.load path source = .ok m') : m'.Ready := by
  obtain ⟨hbuilt, hcalls, hstate⟩ := h.kept
  refine Machine.ready_of_load hbuilt ?_ ?_ hload
  · rw [hcalls]
    exact fun address haddress => nomatch haddress
  · rw [hstate]
    exact ⟨fun v hv => (nomatch hv), fun name v hv => (nomatch hv)⟩

end Machine.Unrun

end Forth
