-- SUMMARY: Transcripts: sessions as requests and replies, and that failed loads leave no trace in them.
import Forth.Proofs.Correctness
import Forth.Proofs.Safety
import Forth.Proofs.Staging

/-!
# Transcripts

A machine is asked to load texts and to run, in any order, and nothing is reset in
between. The transcript of a session lists what was asked for and what came back. A
load works on the image in place, and yet one that fails can be struck from the
transcript: all other requests get the same replies without it, and the session
ends in the same machine.
-/

namespace Forth

-- ---------------------------------------------------------------------------
-- Requests and replies
-- ---------------------------------------------------------------------------

/-- What a machine is asked for. Each run has an output of its own. -/
inductive Request where
  | load (path source : String)
  | run (output : Sink)

/-- Whether a request failed, and the output of a run. A load writes nothing. -/
structure Reply where
  result : Except Diagnostic Unit
  output : Sink := {}

structure Exchange where
  request : Request
  reply : Reply

def Exchange.isLoad (x : Exchange) : Bool :=
  match x.request, x.reply.result with
  | .load _ _, .ok () => true
  | _, _ => false

def Exchange.isRefusal (x : Exchange) : Bool :=
  match x.request, x.reply.result with
  | .load _ _, .error _ => true
  | _, _ => false

def Exchange.isFailure (x : Exchange) : Bool :=
  match x.request, x.reply.result with
  | .run _, .error _ => true
  | _, _ => false

/-- The machine replies to a request, and becomes another one. -/
inductive Machine.Answers : Machine → Exchange → Machine → Prop where
  | loaded {m m' : Machine} {path source : String} :
      loadInPlace path source m = .ok () m' →
      Answers m ⟨.load path source, { result := .ok () }⟩ m'
  | refused {m m' : Machine} {path source : String} {e : LoadError} :
      loadInPlace path source m = .error e m' →
      Answers m ⟨.load path source, { result := .error e.diagnostic }⟩ m'
  | halted {m m' : Machine} {output : Sink} {n : Nat} :
      (m.writingTo output).runFor n = (.halted, m') →
      Answers m ⟨.run output, ⟨.ok (), m'.state.output⟩⟩ m'
  | failed {m m' : Machine} {output : Sink} {n : Nat} {fault : Fault} :
      (m.writingTo output).runFor n = (.failed fault, m') →
      Answers m ⟨.run output, ⟨.error (m'.report fault), m'.state.output⟩⟩ m'

namespace Machine

variable {m m' m'' : Machine} {x y : Exchange}

theorem answers_of_load {path source : String} (h : m.load path source = .ok m') :
    m.Answers ⟨.load path source, { result := .ok () }⟩ m' := by
  apply Answers.loaded
  rw [loadInPlace_eq, h]

/-- A text that is refused leaves the machine as it was. -/
theorem Answers.eq_of_isRefusal (h : m.Answers x m') (hx : x.isRefusal = true) : m' = m := by
  cases h with
  | refused hload => exact (load_of_loadInPlace_error hload).2
  | loaded _ | halted _ | failed _ => cases hx

/-- The reply to a request, for a run if it ends within `steps` instructions. -/
def answer? (m : Machine) (steps : Nat) : Request → Option (Exchange × Machine)
  | .load path source =>
    match loadInPlace path source m with
    | .ok () m' => some (⟨.load path source, { result := .ok () }⟩, m')
    | .error e m' => some (⟨.load path source, { result := .error e.diagnostic }⟩, m')
  | .run output =>
    match (m.writingTo output).runFor steps with
    | (.running, _) => none
    | (.halted, m') => some (⟨.run output, ⟨.ok (), m'.state.output⟩⟩, m')
    | (.failed fault, m') =>
      some (⟨.run output, ⟨.error (m'.report fault), m'.state.output⟩⟩, m')

/-- A reply that is computed is the reply of the machine. -/
theorem answers_of_answer? {steps : Nat} {request : Request}
    (h : m.answer? steps request = some (x, m')) : m.Answers x m' := by
  cases request with
  | load path source =>
    rw [answer?] at h
    split at h
    · rename_i m₁ hload
      cases h
      exact .loaded hload
    · rename_i e m₁ hload
      cases h
      exact .refused hload
  | run output =>
    rw [answer?] at h
    split at h
    · cases h
    · rename_i m₁ hrun
      cases h
      exact .halted hrun
    · rename_i fault m₁ hrun
      cases h
      exact .failed hrun

/-- A machine has one reply to a request. -/
theorem Answers.unique (h : m.Answers x m') (h' : m.Answers y m'') (hxy : x.request = y.request) :
    x = y ∧ m' = m'' := by
  cases h with
  | loaded hload =>
    cases h' with
    | loaded hload' =>
      cases hxy
      cases hload.symm.trans hload'
      exact ⟨rfl, rfl⟩
    | refused hload' =>
      cases hxy
      cases hload.symm.trans hload'
    | halted _ | failed _ => cases hxy
  | refused hload =>
    cases h' with
    | refused hload' =>
      cases hxy
      cases hload.symm.trans hload'
      exact ⟨rfl, rfl⟩
    | loaded hload' =>
      cases hxy
      cases hload.symm.trans hload'
    | halted _ | failed _ => cases hxy
  | halted hrun =>
    cases h' with
    | halted hrun' =>
      cases hxy
      obtain ⟨-, rfl⟩ := ended_unique hrun Status.noConfusion hrun' Status.noConfusion
      exact ⟨rfl, rfl⟩
    | failed hrun' =>
      cases hxy
      cases (ended_unique hrun Status.noConfusion hrun' Status.noConfusion).1
    | loaded _ | refused _ => cases hxy
  | failed hrun =>
    cases h' with
    | failed hrun' =>
      cases hxy
      obtain ⟨hfault, rfl⟩ := ended_unique hrun Status.noConfusion hrun' Status.noConfusion
      cases hfault
      exact ⟨rfl, rfl⟩
    | halted hrun' =>
      cases hxy
      cases (ended_unique hrun Status.noConfusion hrun' Status.noConfusion).1
    | loaded _ | refused _ => cases hxy

end Machine

-- ---------------------------------------------------------------------------
-- Sessions
-- ---------------------------------------------------------------------------

/-- A session that starts with one machine and ends in another. -/
inductive Transcript : Machine → List Exchange → Machine → Prop where
  | nil {m : Machine} : Transcript m [] m
  | cons {m m' m'' : Machine} {x : Exchange} {log : List Exchange} :
      m.Answers x m' → Transcript m' log m'' → Transcript m (x :: log) m''

namespace Transcript

variable {m m' m'' : Machine} {log log' : List Exchange}

/-- What was asked for decides about the replies and the machine at the end. -/
theorem unique (h : Transcript m log m') (h' : Transcript m log' m'')
    (hrequests : log'.map (·.request) = log.map (·.request)) : log' = log ∧ m'' = m' := by
  induction h generalizing log' with
  | nil =>
    obtain rfl := List.map_eq_nil_iff.1 hrequests
    cases h'
    exact ⟨rfl, rfl⟩
  | cons hx _ ih =>
    obtain ⟨y, rest, rfl, hrequest, hrest⟩ := List.map_eq_cons_iff.1 hrequests
    cases h' with
    | cons hy hlog' =>
      obtain ⟨rfl, rfl⟩ := hy.unique hx hrequest
      obtain ⟨rfl, rfl⟩ := ih hlog' hrest
      exact ⟨rfl, rfl⟩

/-- A session is the same without its refused loads. -/
theorem filter_isRefusal (h : Transcript m log m') :
    Transcript m (log.filter (!·.isRefusal)) m' := by
  induction h with
  | nil => exact .nil
  | @cons m₁ m₂ m₃ x log hx _ ih =>
    cases hrefusal : x.isRefusal with
    | true =>
      obtain rfl := hx.eq_of_isRefusal hrefusal
      rwa [List.filter_cons_of_neg (by simp [hrefusal])]
    | false =>
      rw [List.filter_cons_of_pos (by simp [hrefusal])]
      exact .cons hx ih

/-- The transcript of a session in which each run ends within `steps` instructions. -/
def ofRequests? (steps : Nat) : Machine → List Request → Option (List Exchange × Machine)
  | m, [] => some ([], m)
  | m, request :: requests => do
    let (x, m') ← m.answer? steps request
    let (log, m'') ← ofRequests? steps m' requests
    return (x :: log, m'')

/-- A transcript that is computed is one of the session. -/
theorem of_ofRequests? {steps : Nat} {requests : List Request}
    (h : ofRequests? steps m requests = some (log, m')) : Transcript m log m' := by
  induction requests generalizing m log with
  | nil =>
    cases h
    exact .nil
  | cons request requests ih =>
    obtain ⟨⟨x, m₁⟩, hx, h⟩ := Option.bind_eq_some_iff.1 h
    obtain ⟨⟨log₁, m₂⟩, hlog, h⟩ := Option.bind_eq_some_iff.1 h
    cases h
    exact .cons (Machine.answers_of_answer? hx) (ih hlog)

/-- Loads that fail leave no trace. A session in which the same is asked for without
    them is possible, has the same replies, and ends in the same machine. -/
theorem without_refusals (h : Transcript m log m') :
    Transcript m (log.filter (!·.isRefusal)) m' ∧
      ∀ log' m'', Transcript m log' m'' →
        log'.map (·.request) = (log.filter (!·.isRefusal)).map (·.request) →
        log' = log.filter (!·.isRefusal) ∧ m'' = m' :=
  ⟨h.filter_isRefusal, fun _ _ h' hrequests => h.filter_isRefusal.unique h' hrequests⟩

/-- Four texts are refused: one for a comment and one for a conditional that is not closed,
    and two for a word that is missing, each time behind a definition that was read already. -/
theorem without_refusals_of_new_machine :
    ∃ log m', Transcript {} log m' ∧
      log.map (·.isRefusal) = [false, true, false, true, true, true, false, false] ∧
      m'.state.output.written = "72".toUTF8 ∧
      Transcript {} (log.filter (!·.isRefusal)) m' := by
  let requests : List Request :=
    [.load "a" ": f 7 . ; f", .load "b" ": f 8 . ; : g \"x\" missing ;", .run {},
      .load "c" ": f 9 . ; ( f", .load "d" ": f 9 . ; if f", .load "e" ": f 9 . ; 1 missing",
      .load "g" "f 2 .", .run {}]
  have hreplay : ((ofRequests? 20 {} requests).map fun r =>
      (r.1.map (·.isRefusal), r.2.state.output.written.data)) =
        some ([false, true, false, true, true, true, false, false], "72".toUTF8.data) := by
    decide +kernel
  obtain ⟨⟨log, m'⟩, hlog, hdata⟩ := Option.map_eq_some_iff.1 hreplay
  obtain ⟨hrefusals, hwritten⟩ := Prod.ext_iff.1 hdata
  have htranscript := of_ofRequests? hlog
  exact ⟨log, m', htranscript, hrefusals, ByteArray.ext hwritten,
    (without_refusals htranscript).1⟩

end Transcript

end Forth
