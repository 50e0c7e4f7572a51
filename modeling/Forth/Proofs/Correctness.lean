-- SUMMARY: Loading and running a text is evaluating it: whole programs end as their phrases do.
import Forth.Proofs.Simulation

/-!
# Correctness of loading and running

A machine that has loaded texts realizes the library of their phrases. So a text
that is loaded and run without open calls ends as the evaluation of its phrase in
that library does: with the same state, or with the same fault and the same
states before and after the action that failed. It runs forever just if the
evaluation has no outcome.
-/

namespace Forth

-- ---------------------------------------------------------------------------
-- Whole programs
-- ---------------------------------------------------------------------------

namespace Machine

variable {m m' : Machine} {n n' : Nat} {o o' : Outcome}

/-- How the run of a machine ends. -/
def EndsIn (m : Machine) : Outcome → Prop
  | .done s => ∃ n m', m.runFor n = (.halted, m') ∧ m'.state = s
  | .failed fault before after => m.FailsWith fault before after

/-- A run ends in one way only, whatever number of steps it is given. -/
theorem ended_unique {status status' : Status} {m₁ m₂ : Machine}
    (h : m.runFor n = (status, m₁)) (hended : status ≠ .running)
    (h' : m.runFor n' = (status', m₂)) (hended' : status' ≠ .running) :
    status = status' ∧ m₁ = m₂ := by
  have heq : m.runFor n = m.runFor n' := by
    rcases Nat.le_total n n' with hle | hle
    · obtain ⟨k, rfl⟩ := Nat.le.dest hle
      exact (runFor_of_ended (by rw [h]; exact hended) k).symm
    · obtain ⟨k, rfl⟩ := Nat.le.dest hle
      exact runFor_of_ended (by rw [h']; exact hended') k
  exact Prod.mk.inj (h.symm.trans (heq.trans h'))

theorem FailsWith.exists_runFor {fault : Fault} {before after : State}
    (h : m.FailsWith fault before after) : ∃ n m', m.runFor n = (.failed fault, m') := by
  obtain ⟨n, m₁, m₂, hrun, -, hstep, -⟩ := h
  exact ⟨n + 1, m₂, (runFor_succ hrun).trans hstep⟩

theorem EndsIn.exists_ended (h : m.EndsIn o) : ∃ n, (m.runFor n).1 ≠ .running := by
  cases o with
  | done s =>
    obtain ⟨n, m', hrun, -⟩ := h
    exact ⟨n, by rw [hrun]; exact Status.noConfusion⟩
  | failed fault before after =>
    obtain ⟨n, m', hrun⟩ := FailsWith.exists_runFor h
    exact ⟨n, by rw [hrun]; exact Status.noConfusion⟩

/-- A run fails in one way only. -/
theorem FailsWith.unique {fault fault' : Fault} {before before' after after' : State}
    (h : m.FailsWith fault before after) (h' : m.FailsWith fault' before' after') :
    fault = fault' ∧ before = before' ∧ after = after' := by
  obtain ⟨n, m₁, m₂, hrun, rfl, hstep, rfl⟩ := h
  obtain ⟨n', m₁', m₂', hrun', rfl, hstep', rfl⟩ := h'
  have hfailed : m.runFor (n + 1) = (.failed fault, m₂) := (runFor_succ hrun).trans hstep
  have hfailed' : m.runFor (n' + 1) = (.failed fault', m₂') := (runFor_succ hrun').trans hstep'
  obtain ⟨hfault, hafter⟩ := ended_unique hfailed Status.noConfusion hfailed' Status.noConfusion
  -- no run goes on behind its end, so both fail at the same instruction
  obtain ⟨j, hj, -⟩ := ends_of_running hrun (by rw [hfailed']; exact Status.noConfusion)
  obtain ⟨j', hj', -⟩ := ends_of_running hrun' (by rw [hfailed]; exact Status.noConfusion)
  obtain rfl : n = n' := by omega
  obtain rfl : m₁ = m₁' := congrArg Prod.snd (hrun.symm.trans hrun')
  exact ⟨Status.failed.inj hfault, rfl, congrArg Machine.state hafter⟩

/-- A run that halts does not fail. -/
theorem not_failsWith_of_halted {fault : Fault} {before after : State}
    (h : m.runFor n = (.halted, m')) : ¬ m.FailsWith fault before after := by
  intro hfails
  obtain ⟨n', m'', hrun⟩ := hfails.exists_runFor
  cases (ended_unique h Status.noConfusion hrun Status.noConfusion).1

/-- A run ends in one way only. -/
theorem EndsIn.unique (h : m.EndsIn o) (h' : m.EndsIn o') : o = o' := by
  cases o with
  | done s =>
    obtain ⟨n, m₁, hrun, rfl⟩ := h
    cases o' with
    | done s' =>
      obtain ⟨n', m₁', hrun', rfl⟩ := h'
      rw [(ended_unique hrun Status.noConfusion hrun' Status.noConfusion).2]
    | failed fault before after => exact absurd h' (not_failsWith_of_halted hrun)
  | failed fault before after =>
    cases o' with
    | done s' =>
      obtain ⟨n, m₁, hrun, -⟩ := h'
      exact absurd h (not_failsWith_of_halted hrun)
    | failed fault' before' after' =>
      obtain ⟨rfl, rfl, rfl⟩ := FailsWith.unique h h'
      rfl

/-- Top-level code halts where its evaluation is done. -/
theorem endsIn_of_leads {d : Dictionary} {ops : List Op} (hcalls : m.calls = [])
    (hret : m.image.Holds d (m.ip + ops.length) [.ret]) (h : m.Leads (m.behind ops.length) o) :
    m.EndsIn o := by
  cases o with
  | failed fault before after => exact h
  | done s =>
    obtain ⟨k, hrun⟩ := h
    have hstep : (m.behind ops.length s).step = (.halted, m.behind ops.length s) := by
      rw [step_ret hret, show (m.behind ops.length s).calls = [] from hcalls]
    exact ⟨k + 1, _, (runFor_succ hrun).trans hstep, rfl⟩

end Machine

/-- A program ends as its phrase is evaluated. -/
theorem Image.Realizes.endsIn_iff {lib : Library} {d : Dictionary} {p : Phrase} {m : Machine}
    (hlib : m.image.Realizes lib d) (hknown : p.Known) (hcalls : m.calls = [])
    (hholds : m.image.Holds d m.ip (p.code ++ [.ret])) (o : Outcome) :
    m.EndsIn o ↔ Eval lib p m.state o := by
  obtain ⟨hcode, hret⟩ := holds_append.1 hholds
  have hends : ∀ {o}, Eval lib p m.state o → m.EndsIn o := fun heval =>
    Machine.endsIn_of_leads hcalls hret (hlib.runs hknown heval m rfl rfl hcode)
  constructor
  · intro h
    obtain ⟨n, hn⟩ := h.exists_ended
    obtain ⟨o', heval⟩ := hlib.exists_eval m hknown hcode hn
    exact h.unique (hends heval) ▸ heval
  · exact hends

-- ---------------------------------------------------------------------------
-- Loaded texts
-- ---------------------------------------------------------------------------

/-- What a text spells is known: the name of top-level code has a blank, so no lexeme is
    this name. -/
theorem Spells.known {path source : String} {p : Phrase} (h : Spells path source p) :
    p.Known ∧ ∀ d ∈ p.definitions, d.body.Known := by
  have hnames : ∀ t ∈ tokensOf (Cursor.ofSource path source).lexemes.1, ∀ name,
      t.payload = .identifier name → name ≠ Word.topLevel := by
    rintro t ht name hname rfl
    cases isBlank_of_identifier ht hname ' ' (by decide)
  refine ⟨h.2.known hnames, ?_⟩
  intro d hd
  obtain ⟨us, hus, hbody⟩ := h.2.exists_of_mem_definitions hd
  exact hbody.known fun t ht => hnames t (hus ht)

/-- The image after loading a text realizes the library with the text's phrase, and
    the machine goes on at the code of the phrase. -/
theorem Machine.realizes_of_load {m m' : Machine} {path source : String} {lib : Library}
    {p : Phrase} (hbuilt : m.image.Built) (hlib : m.image.Realizes lib m.image.dictionary)
    (hload : m.load path source = .ok m') (hspells : Spells path source p) :
    m'.image.Realizes (p :: lib) m'.image.dictionary ∧
      m'.image.Holds m'.image.dictionary m'.ip (p.code ++ [.ret]) := by
  obtain ⟨p', image, ip, hspells', hlink, rfl⟩ := exists_phrase_of_load hload
  obtain rfl := hspells.unique hspells'
  have hstart := Image.start_of_link hlink rfl
  obtain ⟨code, data, entry, hlinked, rfl, -⟩ := Image.link_eq_ok_iff.1 hlink
  rw [Dictionary.nextAddress_of_tiles hbuilt.tiles] at hlinked hstart
  have hholds := Image.holds_extend hlinked (Image.place m.image.dictionary (p.words (.start path)))
  constructor
  · refine .cons (hlib.mono (Image.extends_extend ..)) hspells.known.1 hspells.known.2 ?_
    rw [Dictionary.nextAddress_of_tiles hbuilt.tiles]
    exact hholds
  · rw [Phrase.words, opsOf_append, Image.holds_append, opsOf_cons, opsOf_nil,
      List.append_nil] at hholds
    rw [hstart]
    exact hholds.2

/-- The images that are reached by loading texts, newest first. What else happens to
    the machine in between does not matter. -/
inductive Image.Loaded : List (String × String) → Image → Prop where
  | new : Loaded [] {}
  | load {texts : List (String × String)} {m m' : Machine} {path source : String} :
      Loaded texts m.image → m.load path source = .ok m' → Loaded ((path, source) :: texts) m'.image

/-- The phrases of a library are those that the texts spell, one after the other. -/
inductive Library.SpelledBy : Library → List (String × String) → Prop where
  | nil : SpelledBy [] []
  | cons {lib : Library} {texts : List (String × String)} {p : Phrase} {path source : String} :
      Spells path source p → SpelledBy lib texts → SpelledBy (p :: lib) ((path, source) :: texts)

namespace Image.Loaded

variable {image : Image} {texts : List (String × String)}

theorem built (h : Loaded texts image) : image.Built := by
  induction h with
  | new => exact built_empty
  | load _ hload ih => exact Machine.built_of_load ih hload

/-- Every text that was loaded spells a phrase, and they make up a library. -/
theorem exists_library (h : Loaded texts image) : ∃ lib : Library, lib.SpelledBy texts := by
  induction h with
  | new => exact ⟨[], .nil⟩
  | load _ hload ih =>
    obtain ⟨lib, hlib⟩ := ih
    obtain ⟨p, _, _, hspells, -⟩ := Machine.exists_phrase_of_load hload
    exact ⟨p :: lib, .cons hspells hlib⟩

/-- An image realizes the library of the texts that it was loaded from. -/
theorem realizes (h : Loaded texts image) {lib : Library} (hlib : lib.SpelledBy texts) :
    image.Realizes lib image.dictionary := by
  induction h generalizing lib with
  | new =>
    cases hlib
    exact .nil
  | load hloaded hload ih =>
    cases hlib with
    | cons hspells hlib => exact (Machine.realizes_of_load hloaded.built (ih hlib) hload hspells).1

end Image.Loaded

/-- Loading a text and running it is evaluating its phrase: a machine without open calls
    ends in an outcome just if the evaluation does, and never ends just if the
    evaluation has no outcome. -/
theorem Machine.run_iff_eval {m m' : Machine} {texts : List (String × String)} {path source : String}
    (hloaded : Image.Loaded texts m.image) (hcalls : m.calls = [])
    (hload : m.load path source = .ok m') :
    (∃ lib : Library, lib.SpelledBy ((path, source) :: texts)) ∧
      ∀ (p : Phrase) (lib : Library), Spells path source p → lib.SpelledBy texts →
        (∀ o, m'.EndsIn o ↔ Eval (p :: lib) p m.state o) ∧
          ((∀ n, (m'.runFor n).1 = .running) ↔ ∀ o, ¬ Eval (p :: lib) p m.state o) := by
  refine ⟨(hloaded.load hload).exists_library, ?_⟩
  intro p lib hspells hlib
  obtain ⟨hrealizes, hholds⟩ :=
    realizes_of_load hloaded.built (hloaded.realizes hlib) hload hspells
  obtain ⟨_, _, _, -, -, rfl⟩ := exists_phrase_of_load hload
  have hends := hrealizes.endsIn_iff hspells.known.1 hcalls hholds
  refine ⟨hends, ?_, ?_⟩
  · intro hruns o heval
    obtain ⟨n, hn⟩ := ((hends o).2 heval).exists_ended
    exact hn (hruns n)
  · intro hnone n
    by_contra hn
    obtain ⟨o, heval⟩ := hrealizes.exists_eval _ hspells.known.1 (Image.holds_append.1 hholds).1 hn
    exact hnone o heval

/-- A word of an older text that calls itself in one branch. -/
theorem Machine.run_iff_eval_countdown :
    ∃ (p : Phrase) (lib : Library) (s : State), Spells "b" "3 count" p ∧
      lib.SpelledBy [("a", ": count dup if dup . -1 + count else drop then ;")] ∧
      Eval (p :: lib) p {} (.done s) ∧ s.stack = [] ∧ s.output.written.data = #[51, 50, 49] := by
  let older : Machine :=
    ({} : Machine).tryLoad ("a", ": count dup if dup . -1 + count else drop then ;")
  let loaded : Machine := older.tryLoad ("b", "3 count")
  have hruns :
      (({} : Machine).load "a" ": count dup if dup . -1 + count else drop then ;").isOk = true ∧
      (older.load "b" "3 count").isOk = true ∧ older.calls = [] ∧ older.state = {} ∧
      (loaded.runFor 40).1 = .halted ∧ (loaded.runFor 40).2.state.stack = [] ∧
      (loaded.runFor 40).2.state.output.written.data = #[51, 50, 49] := by
    decide +kernel
  obtain ⟨holder, hloaded, hcalls, hstate, hhalted, hstack, hwritten⟩ := hruns
  have himage := @Image.Loaded.load [] {} older _ _ .new (load_eq_ok_tryLoad holder)
  obtain ⟨⟨_, hlib⟩, heval⟩ := run_iff_eval himage hcalls (load_eq_ok_tryLoad hloaded)
  rw [hstate] at heval
  cases hlib with
  | @cons lib _ p _ _ hspells hlib =>
    have hends : loaded.EndsIn (.done (loaded.runFor 40).2.state) :=
      ⟨40, _, Prod.ext hhalted rfl, rfl⟩
    exact ⟨p, lib, _, hspells, hlib, ((heval p lib hspells hlib).1 _).1 hends, hstack, hwritten⟩

end Forth
