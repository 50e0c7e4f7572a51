-- SUMMARY: Dumps: asking for the listing puts it in front of what a command prints, and changes nothing else.
import Forth.CommandLine
import Forth.Proofs.Limits

/-!
# Dumps

A command that is asked for a dump writes the listing before it runs the program. The
option may stand anywhere among the arguments and more than once. It has no say in
whether the arguments are valid, what is read and what is loaded. A program can not see
what was written before it, so it runs as it does without a dump.
-/

namespace Forth

-- ---------------------------------------------------------------------------
-- Runs behind a text
-- ---------------------------------------------------------------------------

def Sink.behind (front : ByteArray) (s : Sink) : Sink :=
  { s with written := front ++ s.written }

namespace Machine

variable {m : Machine} {n : Nat}

def outputBehind (front : ByteArray) (m : Machine) : Machine :=
  m.writingTo (m.state.output.behind front)

theorem outputBehind_outputBehind (front front' : ByteArray) (m : Machine) :
    (m.outputBehind front').outputBehind front = m.outputBehind (front ++ front') := by
  simp only [outputBehind, writingTo, Sink.behind, ByteArray.append_assoc]

/-- A step does not see what was written before. -/
theorem step_outputBehind (front : ByteArray) (hfree : m.state.output.limit = none) :
    m.step.2.state.output.limit = none ∧
      (m.outputBehind front).step = (m.step.1, m.step.2.outputBehind front) := by
  rcases m.prints_or_silent with ⟨v, rest, hprints⟩ | hsilent
  · have hbehind := step_unlimited (hprints.writingTo (m.state.output.behind front)) hfree
    rw [step_unlimited hprints hfree]
    refine ⟨rfl, hbehind.trans ?_⟩
    simp only [printed, writingTo, outputBehind, Sink.behind, ByteArray.append_assoc]
  · have houtput := output_of_silent hsilent
    refine ⟨houtput ▸ hfree, ?_⟩
    rw [outputBehind, hsilent, outputBehind, houtput]

/-- A run without a limit on its output does the same behind other output. -/
theorem runFor_outputBehind (front : ByteArray) (hfree : m.state.output.limit = none) :
    (m.outputBehind front).runFor n = ((m.runFor n).1, (m.runFor n).2.outputBehind front) := by
  induction n generalizing m with
  | zero => rfl
  | succ n ih =>
    obtain ⟨hfree', hstep⟩ := step_outputBehind front hfree
    rw [runFor, runFor, hstep]
    generalize m.step = next at hfree' ⊢
    obtain ⟨status, m'⟩ := next
    cases status with
    | running => exact ih hfree'
    | halted | failed fault => rfl

end Machine

namespace CommandLine

-- ---------------------------------------------------------------------------
-- Arguments
-- ---------------------------------------------------------------------------

/-- The arguments with `--dump` inserted at the given positions, one after the other. A
    position behind the end inserts nothing. -/
def insertDumps (positions : List Nat) (arguments : List String) : List String :=
  positions.foldl (fun arguments i => arguments.insertIdx i "--dump") arguments

theorem insertDumps_cons (i : Nat) (positions : List Nat) (arguments : List String) :
    insertDumps (i :: positions) arguments =
      insertDumps positions (arguments.insertIdx i "--dump") :=
  rfl

example : insertDumps [1, 0] ["a"] = ["--dump", "a", "--dump"] := by decide

namespace Settings

def dumping (s : Settings) : Settings :=
  { s with dump := true }

theorem add_dump (s : Settings) : s.add "--dump" = .ok s.dumping :=
  if_pos rfl

/-- Whether a listing is asked for makes no difference to the other arguments. -/
theorem add_dumping (s : Settings) (argument : String) :
    s.dumping.add argument = (s.add argument).map dumping := by
  unfold add
  split
  · rfl
  · split
    · rfl
    · cases hscript : s.script <;> simp [dumping, hscript, Except.map]

theorem foldlM_add_dumping (s : Settings) (arguments : List String) :
    arguments.foldlM add s.dumping = (arguments.foldlM add s).map dumping := by
  induction arguments generalizing s with
  | nil => rfl
  | cons argument arguments ih =>
    rw [List.foldlM_cons, List.foldlM_cons, add_dumping]
    cases s.add argument with
    | ok s' => exact ih s'
    | error e => rfl

theorem dump_add {s s' : Settings} {argument : String} (h : s.add argument = .ok s') :
    s'.dump = true ↔ s.dump = true ∨ argument = "--dump" := by
  unfold add at h
  split at h
  · next hdump =>
    cases h
    simp [hdump]
  · next hdump =>
    have hkept : s'.dump = s.dump := by
      split at h
      · cases h
      · split at h <;> cases h
        rfl
    simp [hkept, hdump]

/-- A listing is asked for if `--dump` is among the arguments. -/
theorem dump_foldlM_add {s s' : Settings} {arguments : List String}
    (h : arguments.foldlM add s = .ok s') :
    s'.dump = true ↔ s.dump = true ∨ "--dump" ∈ arguments := by
  induction arguments generalizing s with
  | nil =>
    cases h
    simp
  | cons argument arguments ih =>
    rw [List.foldlM_cons] at h
    obtain ⟨s₁, hadd, hrest⟩ := bind_eq_ok_iff.1 h
    rw [ih hrest, dump_add hadd, or_assoc, List.mem_cons, eq_comm (a := argument)]

/-- A dump is asked for just if its option is there. -/
theorem dump_ofArguments {s : Settings} {arguments : List String}
    (h : ofArguments arguments = .ok s) : s.dump = true ↔ "--dump" ∈ arguments :=
  (dump_foldlM_add h).trans (or_iff_right Bool.false_ne_true)

/-- Wherever the option is inserted, it asks for a dump and does nothing else. -/
theorem foldlM_insertIdx (s : Settings) (arguments : List String) (i : Nat) :
    (arguments.insertIdx i "--dump").foldlM add s = (arguments.foldlM add s).map dumping ∨
      arguments.insertIdx i "--dump" = arguments := by
  induction arguments generalizing s i with
  | nil =>
    cases i with
    | zero => exact .inl (foldlM_add_dumping s [])
    | succ i => exact .inr rfl
  | cons argument arguments ih =>
    cases i with
    | zero =>
      left
      rw [List.insertIdx_zero, List.foldlM_cons, add_dump]
      exact foldlM_add_dumping s (argument :: arguments)
    | succ i =>
      rw [List.insertIdx_succ_cons, List.foldlM_cons, List.foldlM_cons]
      cases s.add argument with
      | error e => exact .inl rfl
      | ok s' => exact (ih s' i).imp id (congrArg _)

/-- Inserted arguments ask for a listing and do nothing else, if there are any. -/
theorem ofArguments_insertDumps (positions : List Nat) (arguments : List String) :
    ofArguments (insertDumps positions arguments) = (ofArguments arguments).map dumping ∨
      insertDumps positions arguments = arguments := by
  induction positions generalizing arguments with
  | nil => exact .inr rfl
  | cons i positions ih =>
    have hfirst := foldlM_insertIdx {} arguments i
    rw [insertDumps_cons]
    rcases ih (arguments.insertIdx i "--dump") with hrest | hrest
    · left
      rw [hrest]
      rcases hfirst with hfirst | hfirst
      · rw [ofArguments, hfirst, ofArguments]
        cases arguments.foldlM add {} <;> rfl
      · rw [hfirst]
    · rw [hrest]
      exact hfirst

end Settings

-- ---------------------------------------------------------------------------
-- Preparing
-- ---------------------------------------------------------------------------

variable {host : Host Id} {arguments arguments' : List String} {machine : Machine}

/-- Reads the library and loads it, and then the program. The first failure ends it. -/
def loaded (host : Host Id) (settings : Settings) : Except Diagnostic Machine := do
  let library ← Id.run host.library.run
  let base ← load {} library
  let program ← Id.run (host.program settings).run
  load base program

/-- The arguments are valid and both texts can be loaded, which gives `machine`. -/
def Loads (host : Host Id) (arguments : List String) (machine : Machine) : Prop :=
  ∃ settings, Settings.ofArguments arguments = .ok settings ∧ loaded host settings = .ok machine

def withListing (machine : Machine) : Machine :=
  machine.writingTo { written := machine.image.listing.toUTF8 }

theorem state_of_load {machine machine' : Machine} {script : Script}
    (h : load machine script = .ok machine') : machine'.state = machine.state := by
  unfold load Machine.loadInPlace at h
  split at h
  · next hload =>
    cases h
    split at hload
    · cases hload
    · split at hload <;> cases hload
      rfl
  · cases h

theorem run_bind {ε α β : Type} (x : ExceptT ε Id α) (f : α → ExceptT ε Id β) :
    (x >>= f).run = Except.bind x.run fun a => (f a).run := by
  change (ExceptT.bind x f).run = _
  unfold ExceptT.bind
  rcases x with _ | _ <;> rfl

theorem run_ofExcept {ε α : Type} (x : Except ε α) :
    (MonadExcept.ofExcept x : ExceptT ε Id α).run = x := by
  cases x <;> rfl

/-- A dump is the last thing that is prepared. -/
theorem run_prepare (host : Host Id) (arguments : List String) :
    (prepare host arguments).run =
      ((Settings.ofArguments arguments).mapError (·.diagnostic)).bind fun settings =>
        (loaded host settings).map fun machine =>
          if settings.dump then withListing machine else machine := by
  unfold prepare
  simp only [run_bind, run_ofExcept]
  cases (Settings.ofArguments arguments).mapError (·.diagnostic) with
  | error d => rfl
  | ok settings =>
    simp only [loaded, bind, Except.bind, Id.run]
    cases host.library.run with
    | error d => rfl
    | ok library =>
      dsimp only
      cases load {} library with
      | error d => rfl
      | ok base =>
        dsimp only
        cases (host.program settings).run with
        | error d => rfl
        | ok program =>
          dsimp only
          cases load base program with
          | error d => rfl
          | ok machine =>
            dsimp only
            split <;> rfl

/-- A machine that has loaded its texts has written nothing. -/
theorem Loads.output_eq (h : Loads host arguments machine) : machine.state.output = {} := by
  obtain ⟨settings, -, hloaded⟩ := h
  unfold loaded at hloaded
  obtain ⟨library, -, hloaded⟩ := bind_eq_ok_iff.1 hloaded
  obtain ⟨base, hbase, hloaded⟩ := bind_eq_ok_iff.1 hloaded
  obtain ⟨program, -, hmachine⟩ := bind_eq_ok_iff.1 hloaded
  rw [state_of_load hmachine, state_of_load hbase]

/-- What a command has written when the program starts. -/
def dumped (arguments : List String) (machine : Machine) : ByteArray :=
  if "--dump" ∈ arguments then machine.image.listing.toUTF8 else .empty

/-- If both texts can be loaded, the machine starts behind what is dumped. -/
theorem Loads.prepare_eq (h : Loads host arguments machine) :
    (prepare host arguments).run = .ok (machine.outputBehind (dumped arguments machine)) := by
  have houtput := h.output_eq
  obtain ⟨settings, hsettings, hloaded⟩ := h
  have hprepare : (prepare host arguments).run =
      .ok (if "--dump" ∈ arguments then withListing machine else machine) := by
    rw [run_prepare, hsettings]
    simp only [Except.mapError, Except.bind, hloaded, Settings.dump_ofArguments hsettings]
    rfl
  rw [hprepare, dumped, Machine.outputBehind]
  split
  · simp [withListing, houtput, Sink.behind]
  · simp [Machine.writingTo, Sink.behind]

/-- If the arguments are not valid or a text can not be loaded, nothing is ready to run. -/
theorem exists_prepare_eq_error (h : ∀ machine, ¬ Loads host arguments machine) :
    ∃ d, (prepare host arguments).run = .error d := by
  rw [run_prepare]
  cases hsettings : Settings.ofArguments arguments with
  | error e => exact ⟨e.diagnostic, rfl⟩
  | ok settings =>
    cases hloaded : loaded host settings with
    | error d =>
      refine ⟨d, ?_⟩
      simp only [Except.mapError, Except.bind, hloaded]
      rfl
    | ok machine => exact absurd ⟨settings, hsettings, hloaded⟩ (h machine)

section Inserted

variable (positions : List Nat)

/-- Inserted arguments make no difference to what is loaded. -/
theorem Loads.insertDumps (h : Loads host arguments machine) :
    Loads host (insertDumps positions arguments) machine ∧
      ("--dump" ∈ arguments → "--dump" ∈ insertDumps positions arguments) := by
  rcases Settings.ofArguments_insertDumps positions arguments with hinserted | hsame
  · obtain ⟨settings, hsettings, hloaded⟩ := h
    rw [hsettings] at hinserted
    exact ⟨⟨settings.dumping, hinserted, hloaded⟩,
      fun _ => (Settings.dump_ofArguments hinserted).1 rfl⟩
  · rw [hsame]
    exact ⟨h, id⟩

/-- The first failure is the same. -/
theorem prepare_insertDumps_of_error {d : Diagnostic}
    (h : (prepare host arguments).run = .error d) :
    (prepare host (CommandLine.insertDumps positions arguments)).run = .error d := by
  rcases Settings.ofArguments_insertDumps positions arguments with hinserted | hsame
  · rw [run_prepare] at h ⊢
    rw [hinserted]
    cases hsettings : Settings.ofArguments arguments with
    | error e =>
      rw [hsettings] at h
      exact h
    | ok settings =>
      rw [hsettings] at h
      have hloaded : loaded host settings.dumping = loaded host settings := rfl
      simp only [Except.mapError, Except.map, Except.bind, hloaded] at h ⊢
      cases hmachine : loaded host settings with
      | error e =>
        rw [hmachine] at h
        exact h
      | ok machine =>
        rw [hmachine] at h
        cases h
  · rwa [hsame]

end Inserted

-- ---------------------------------------------------------------------------
-- Outcomes
-- ---------------------------------------------------------------------------

def Outcome.outputBehind (front : ByteArray) (o : Outcome) : Outcome :=
  { o with output := front ++ o.output }

theorem Outcome.ofStatus?_outputBehind (front : ByteArray) (m : Machine) (status : Status) :
    ofStatus? (m.outputBehind front) status = (ofStatus? m status).map (outputBehind front) := by
  cases status <;> rfl

/-- With the other arguments a command does the same, with a text in front of its output. -/
structure OnlyPrepends (host : Host Id) (arguments arguments' : List String)
    (front : ByteArray) : Prop where
  run_eq : ∀ steps, run steps host arguments' =
    (run steps host arguments).map (Outcome.outputBehind front)
  /-- That holds at every instruction, also if the program never ends. -/
  written_eq : ∃ m m', (prepare host arguments).run = .ok m ∧
    (prepare host arguments').run = .ok m' ∧ ∀ n, (m'.runFor n).1 = (m.runFor n).1 ∧
      (m'.runFor n).2.state.output.written = front ++ (m.runFor n).2.state.output.written

/-- A command that starts behind a text only prepends it to its output. -/
theorem onlyPrepends_of_prepare {m : Machine} {front : ByteArray}
    (h : (prepare host arguments).run = .ok m)
    (h' : (prepare host arguments').run = .ok (m.outputBehind front))
    (hfree : m.state.output.limit = none) : OnlyPrepends host arguments arguments' front where
  run_eq := by
    intro steps
    simp only [run, h, h', Machine.runFor_outputBehind front hfree, Outcome.ofStatus?_outputBehind]
  written_eq := by
    refine ⟨m, _, h, h', fun n => ?_⟩
    rw [Machine.runFor_outputBehind front hfree]
    exact ⟨rfl, rfl⟩

/-- Wherever `--dump` is inserted among the arguments, the command has the same status and the
    same errors. If the arguments are valid and both texts can be loaded, the listing of all
    that was loaded comes in front of the output, unless it is there already. If not, nothing is
    printed with or without it. -/
theorem dumps_only_prepend (host : Host Id) (arguments : List String) (positions : List Nat) :
    (∀ machine, Loads host arguments machine →
      OnlyPrepends host arguments (insertDumps positions arguments)
        (if "--dump" ∈ insertDumps positions arguments ∧ "--dump" ∉ arguments then
          machine.image.listing.toUTF8
        else
          .empty)) ∧
    ((∀ machine, ¬ Loads host arguments machine) → ∃ errors, ∀ steps,
      run steps host arguments = some { status := 1, output := .empty, errors } ∧
      run steps host (insertDumps positions arguments) =
        some { status := 1, output := .empty, errors }) := by
  constructor
  · intro machine hloads
    obtain ⟨hloads', hmore⟩ := hloads.insertDumps positions
    have hfree : (machine.outputBehind (dumped arguments machine)).state.output.limit = none :=
      congrArg Sink.limit hloads.output_eq
    refine onlyPrepends_of_prepare hloads.prepare_eq ?_ hfree
    rw [hloads'.prepare_eq, Machine.outputBehind_outputBehind]
    -- the listing is there from the start, or it is new, or it is not asked for at all
    by_cases hdump : "--dump" ∈ arguments
    · simp [dumped, hdump, hmore hdump]
    · simp [dumped, hdump]
  · intro hnone
    obtain ⟨d, hd⟩ := exists_prepare_eq_error hnone
    have hd' := prepare_insertDumps_of_error positions hd
    refine ⟨errorText d, fun steps => ⟨?_, ?_⟩⟩
    · rw [run, hd]
    · rw [run, hd']

end CommandLine

end Forth
