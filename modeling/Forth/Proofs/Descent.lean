-- SUMMARY: The compiler by recursive descent gives the same results as the one with frames.
import Forth.Compiler.Descent

/-!
# Recursive descent and frames

A call that compiles the statements of a construct does what the compiler with
frames does while that construct is its innermost one. Both fail with the same
error, or the call ends where the frame is about to be closed. This holds for any
constructs around, so it goes through by induction on the bound of the calls.

The end of the input is read twice when a construct is not closed. That changes
nothing, because the end can be read again and again.
-/

namespace Forth

-- ---------------------------------------------------------------------------
-- Reads
-- ---------------------------------------------------------------------------

namespace Lexer

/-- A pending end of the input is the end of this text. -/
def Sane (l : Lexer) : Prop :=
  ∀ t, l.pending = some t → t.payload = .endOfInput → l.lexemes = [] ∧ t.location = l.finish

variable {l l' : Lexer} {t : Token} {e : SyntaxError}

theorem sane_of_pending (h : l.pending = none) : l.Sane := by
  intro t ht
  rw [h] at ht
  cases ht

/-- The end of the input is met behind all lexemes, at the end of the text. -/
theorem scan_end {finish : Location} {c : Option Comment} {xs rest : List Lexeme}
    (h : scan finish c xs = .ok t rest) (ht : t.payload = .endOfInput) :
    rest = [] ∧ t.location = finish := by
  fun_induction scan finish c xs with
  | case1 => cases h; exact ⟨rfl, rfl⟩
  | case2 => cases h
  | case3 x xs _ ih => exact ih h
  | case4 x xs =>
    cases h
    exact absurd ht (Token.Payload.ofText_ne_endOfInput _)
  | case5 c x xs _ ih => exact ih h
  | case6 c x xs _ _ _ ih => exact ih h
  | case7 c x xs _ _ inner _ ih => exact ih h
  | case8 c x xs _ _ ih => exact ih h

theorem fresh_end (h : fresh l = .ok t l') (ht : t.payload = .endOfInput) :
    l'.lexemes = [] ∧ t.location = l'.finish := by
  unfold fresh at h
  split at h
  · next hs => cases h; exact scan_end hs ht
  · cases h

theorem pending_fresh (h : fresh l = .ok t l') : l'.pending = l.pending :=
  (fresh_lexemes_length h).2

theorem pending_fresh_error (h : fresh l = .error e l') : l'.pending = l.pending := by
  unfold fresh at h
  split at h
  · cases h
  · cases h; rfl

theorem pending_next (h : next l = .ok t l') : l'.pending = none := by
  unfold next at h
  split at h
  · cases h; rfl
  · next hp => rw [pending_fresh h, hp]

theorem pending_next_error (h : next l = .error e l') : l'.pending = none := by
  unfold next at h
  split at h
  · cases h
  · next hp => rw [pending_fresh_error h, hp]

/-- The end of the input can be read again and again. -/
theorem Sane.next_end (hl : l.Sane) (h : next l = .ok t l') (ht : t.payload = .endOfInput) :
    next l' = .ok t l' := by
  have hend : l'.lexemes = [] ∧ t.location = l'.finish := by
    unfold next at h
    split at h
    · next hp => cases h; exact hl t hp ht
    · exact fresh_end h ht
  obtain ⟨location, payload⟩ := t
  obtain ⟨lexemes, finish, pending⟩ := l'
  obtain ⟨rfl, rfl⟩ := hend
  obtain rfl : pending = none := pending_next h
  obtain rfl : payload = .endOfInput := ht
  rfl

theorem Sane.peek (hl : l.Sane) (h : peek l = .ok t l') : l'.Sane := by
  unfold Lexer.peek at h
  split at h
  · cases h; exact hl
  · split at h
    · next hf =>
      cases h
      intro u hu hend
      cases hu
      have hlast := fresh_end hf hend
      exact hlast
    · cases h

theorem Sane.peek_error (h : Lexer.peek l = .error e l') : l'.Sane := by
  unfold Lexer.peek at h
  split at h
  · cases h
  · rename_i hp
    split at h
    · cases h
    · next hf =>
      cases h
      exact sane_of_pending ((pending_fresh_error hf).trans hp)

end Lexer

-- ---------------------------------------------------------------------------
-- Results
-- ---------------------------------------------------------------------------

/-- The state that a result leaves behind, with or without an error. -/
def leftBy {ε σ α : Type} : EStateM.Result ε σ α → σ
  | .ok _ s => s
  | .error _ s => s

theorem Keyword.text_mem_map {k : Keyword} {ks : List Keyword} :
    k.text ∈ ks.map text ↔ k ∈ ks := by
  refine ⟨fun h => ?_, List.mem_map_of_mem⟩
  obtain ⟨k', hk', heq⟩ := List.mem_map.1 h
  have hsome : some k' = some k := by rw [← ofText?_text, heq, ofText?_text]
  exact Option.some.inj hsome ▸ hk'

def Progress.result : Progress → Compiled
  | .more w => w.run
  | .ended r => r

namespace Work

/-- A keyword that the innermost construct reacts to stops its statements. -/
theorem token_of_stop {w : Work} {t : Token} {k : Keyword} (ht : t.payload = .keyword k)
    (hk : k ∈ w.innerStops) : w.token t = w.stop t k := by
  rw [token, ht]
  exact if_pos hk

theorem run_eq (w : Work) : w.run = w.step.result := by
  cases h : w.step with
  | more w' => exact run_of_more h
  | ended r => exact run_of_ended h

end Work

namespace Descent

variable {α β : Type} {d d' : Descent} {base : List Keyword} {frames : List Frame} {ops : Array Op}

/-- The compilation at `d`, inside of the constructs `frames`. -/
def work (d : Descent) (base : List Keyword) (frames : List Frame) (ops : Array Op) : Work where
  compiler := d.compiler
  stops := base
  frames := frames
  ops := ops

@[simp] theorem work_compiler : (d.work base frames ops).compiler = d.compiler := rfl

@[simp] theorem work_frames : (d.work base frames ops).frames = frames := rfl

/-- `d'` comes behind `d`, outside of the constructs that were opened in between. -/
structure Follows (d d' : Descent) : Prop where
  nesting : d'.nesting = d.nesting
  remaining : d'.remaining ≤ d.remaining
  sane : d'.compiler.lexer.Sane

/-- A part of a compilation that is going to come to `c` gives a result as described, or it
    fails as the compilation does. -/
def Meets (c : Compiled) (d : Descent) (post : α → Descent → Prop) :
    EStateM.Result SyntaxError Descent α → Prop
  | .ok a d' => d.Follows d' ∧ post a d'
  | .error e d' => d'.nesting = d.nesting ∧ d'.compiler.lexer.Sane ∧ c = .error e d'.compiler

theorem Follows.trans {d'' : Descent} (h : d.Follows d') (h' : d'.Follows d'') : d.Follows d'' where
  nesting := h'.nesting.trans h.nesting
  remaining := Nat.le_trans h'.remaining h.remaining
  sane := h'.sane

theorem Meets.of_follows {c : Compiled} {post : α → Descent → Prop}
    {r : EStateM.Result SyntaxError Descent α} (hfollows : d.Follows d') (h : Meets c d' post r) :
    Meets c d post r := by
  cases r with
  | ok a d'' => exact ⟨hfollows.trans h.1, h.2⟩
  | error e d'' => exact ⟨h.1.trans hfollows.nesting, h.2⟩

/-- A part is met if its first half is, and the second half behind every result of it.
    The second half is described from the state in front of both. -/
theorem Meets.andThen {c : Compiled} {x : Descending α} {f : α → Descending β}
    {post : α → Descent → Prop} {post' : β → Descent → Prop} (hx : Meets c d post (x d))
    (hf : ∀ a d', d.Follows d' → post a d' → Meets c d post' (f a d')) :
    Meets c d post' ((x >>= f) d) := by
  change Meets c d post' (EStateM.bind x f d)
  unfold EStateM.bind
  cases hxd : x d with
  | ok a d' =>
    rw [hxd] at hx
    exact hf a d' hx.1 hx.2
  | error e d' =>
    rw [hxd] at hx
    exact hx

/-- A part is met if its first half is, and the second half behind every result of it. -/
theorem Meets.bind {c : Compiled} {x : Descending α} {f : α → Descending β}
    {post : α → Descent → Prop} {post' : β → Descent → Prop} (hx : Meets c d post (x d))
    (hf : ∀ a d', d.Follows d' → post a d' → Meets c d' post' (f a d')) :
    Meets c d post' ((x >>= f) d) :=
  hx.andThen fun a d' hfollows hpost => (hf a d' hfollows hpost).of_follows hfollows

theorem meets_fail {c : Compiled} {l : Location} {fault : SyntaxFault} {post : α → Descent → Prop}
    (hsane : d.compiler.lexer.Sane) (hc : c = .error ⟨l, fault⟩ d.compiler) :
    Meets c d post (fail l fault d) :=
  ⟨rfl, hsane, hc⟩

theorem meets_pure {c : Compiled} {a : α} {post : α → Descent → Prop}
    (hsane : d.compiler.lexer.Sane) (hpost : post a d) :
    Meets c d post ((pure a : Descending α) d) :=
  ⟨⟨rfl, Nat.le_refl _, hsane⟩, hpost⟩

theorem meets_get_bind {c : Compiled} {f : Descent → Descending α} {post : α → Descent → Prop}
    (h : Meets c d post (f d d)) : Meets c d post ((get >>= f) d) :=
  h

theorem meets_modify_bind {c : Compiled} {g : Descent → Descent} {f : Unit → Descending α}
    {post : α → Descent → Prop} (h : Meets c (g d) post (f () (g d)))
    (hnesting : (g d).nesting = d.nesting) (hremaining : (g d).remaining = d.remaining) :
    Meets c d post (((modify g : Descending Unit) >>= f) d) := by
  change Meets c d post (f () (g d))
  cases hf : f () (g d) with
  | ok a d' =>
    rw [hf] at h
    exact ⟨⟨h.1.nesting.trans hnesting, hremaining ▸ h.1.remaining, h.1.sane⟩, h.2⟩
  | error e d' =>
    rw [hf] at h
    exact ⟨h.1.trans hnesting, h.2⟩

-- ---------------------------------------------------------------------------
-- Tokens
-- ---------------------------------------------------------------------------

/-- A read is met by what a compilation with frames reads. -/
theorem meets_next {c : Compiled} {k : Token → Work → Progress}
    (hc : c = ((d.work base frames ops).read Lexer.next k).result) :
    Meets c d (fun t d' => Lexer.next d.compiler.lexer = .ok t d'.compiler.lexer ∧
        c = (k t (d'.work base frames ops)).result)
      (read Lexer.next d) := by
  subst hc
  unfold read Work.read work
  dsimp only
  cases hnext : Lexer.next d.compiler.lexer with
  | ok t lexer =>
    have hsane := Lexer.sane_of_pending (Lexer.pending_next hnext)
    exact ⟨⟨rfl, Lexer.remaining_next_le hnext, hsane⟩, rfl, rfl⟩
  | error e lexer =>
    exact ⟨rfl, Lexer.sane_of_pending (Lexer.pending_next_error hnext), rfl⟩

theorem meets_peek {c : Compiled} {k : Token → Work → Progress} (hsane : d.compiler.lexer.Sane)
    (hc : c = ((d.work base frames ops).read Lexer.peek k).result) :
    Meets c d (fun t d' => c = (k t (d'.work base frames ops)).result) (read Lexer.peek d) := by
  subst hc
  unfold read Work.read work
  dsimp only
  cases hpeek : Lexer.peek d.compiler.lexer with
  | ok t lexer => exact ⟨⟨rfl, Lexer.remaining_peek_le hpeek, hsane.peek hpeek⟩, rfl⟩
  | error e lexer => exact ⟨rfl, Lexer.Sane.peek_error hpeek, rfl⟩

/-- A name gives the op that a compilation with frames adds for it. -/
theorem meets_identifier {c : Compiled} {name : String} (hsane : d.compiler.lexer.Sane)
    (hc : c = ((d.work base frames ops).identifier name).result) :
    Meets c d (fun op d' => c = (d'.work base frames (ops.push op)).run) (identifier name d) := by
  unfold Work.identifier at hc
  unfold identifier
  cases hp : Primitive.find? name with
  | some p =>
    rw [hp] at hc
    exact meets_pure hsane hc
  | none =>
    rw [hp] at hc
    refine (meets_peek hsane hc).bind fun t d' hfollows hc => ?_
    by_cases hstore : t.isIdentifier "!" = true
    · rw [if_pos hstore] at hc ⊢
      refine (meets_next hc).bind fun u d'' hfollows' hpost => ?_
      exact meets_pure hfollows'.sane hpost.2
    · rw [if_neg hstore] at hc ⊢
      by_cases hfetch : t.isIdentifier "@" = true
      · rw [if_pos hfetch] at hc ⊢
        refine (meets_next hc).bind fun u d'' hfollows' hpost => ?_
        exact meets_pure hfollows'.sane hpost.2
      · rw [if_neg hfetch] at hc ⊢
        exact meets_pure hfollows.sane hc

-- ---------------------------------------------------------------------------
-- Constructs
-- ---------------------------------------------------------------------------

/-- The next token is one of the keywords `ks` or the end of the input, and reading it
    changes nothing that putting it back does not restore. -/
def Stopped (ks : List Keyword) (l : Lexer) : Prop :=
  ∃ t l', Lexer.next l = .ok t l' ∧
    ((∃ k ∈ ks, t.payload = .keyword k ∧ Lexer.unread t l' = .ok () l) ∨
      t.payload = .endOfInput ∧ l' = l)

/-- Whatever constructs are open around it, the statements of the innermost one are compiled
    as they are with frames, if less than `bound` tokens are left. -/
def Compiles (base : List Keyword) (bound : Nat) (self : List String → Descending (Array Op)) :
    Prop :=
  ∀ (c : Compiled) (d : Descent) (f : Frame) (frames : List Frame), d.compiler.lexer.Sane →
    (f :: frames).countP Frame.isConditional = d.nesting → d.remaining < bound →
    c = (d.work base (f :: frames) #[]).run →
    Meets c d (fun ops d' =>
        c = (d'.work base (f :: frames) ops).run ∧ Stopped f.stops d'.compiler.lexer)
      (self (f.stops.map Keyword.text) d)

/-- Behind the statements of a construct, one of its keywords is read, or the end of the
    input. -/
theorem meets_closing {c : Compiled} {ks : List Keyword} (hstopped : Stopped ks d.compiler.lexer)
    (hc : c = (d.work base frames ops).run) :
    Meets c d (fun t d' => ((∃ k ∈ ks, t.payload = .keyword k) ∨ t.payload = .endOfInput) ∧
        c = ((d'.work base frames ops).token t).result)
      (read Lexer.next d) := by
  rw [Work.run_eq] at hc
  obtain ⟨t, l', hnext, hstop⟩ := hstopped
  have hread := meets_next hc
  have hlexer : read Lexer.next d = .ok t { d with compiler.lexer := l' } := by
    rw [read, hnext]
  rw [hlexer] at hread ⊢
  refine ⟨hread.1, ?_, hread.2.2⟩
  exact hstop.imp (fun ⟨k, hk, ht, _⟩ => ⟨k, hk, ht⟩) fun h => h.1

/-- A definition is compiled as it is with a frame, if the statements inside of it are. -/
theorem meets_definition {c : Compiled} {self : List String → Descending (Array Op)} {bound : Nat}
    {l : Location} (hself : Compiles base bound self) (hsane : d.compiler.lexer.Sane)
    (hnesting : frames.countP Frame.isConditional = d.nesting) (hbound : d.remaining < bound)
    (hc : c = ((d.work base frames ops).openDefinition l).result) :
    Meets c d (fun _ d' => c = (d'.work base frames ops).run) (definition self l d) := by
  unfold Work.openDefinition at hc
  rw [work_compiler] at hc
  unfold definition
  refine meets_get_bind ?_
  by_cases hdefining : d.compiler.defining = true
  · rw [if_pos hdefining] at hc ⊢
    exact meets_fail hsane hc
  · rw [if_neg hdefining] at hc ⊢
    refine (meets_next hc).bind fun t d₁ hfollows hpost => ?_
    obtain ⟨-, hc⟩ := hpost
    cases ht : t.payload with
    | identifier name =>
      simp only [ht] at hc ⊢
      refine meets_modify_bind ?_ rfl rfl
      have hbody := hself c { d₁ with compiler.defining := true } (.definition l ops name) frames
        hfollows.sane
        (by rw [List.countP_cons_of_neg Bool.false_ne_true, hnesting, hfollows.nesting])
        (Nat.lt_of_le_of_lt hfollows.remaining hbound) hc
      refine hbody.bind fun body d₂ hfollows₂ hpost => ?_
      obtain ⟨hc, hstopped⟩ := hpost
      refine (meets_closing hstopped hc).bind fun closing d₃ hfollows₃ hpost => ?_
      obtain ⟨⟨k, hk, hclosing⟩ | hclosing, hc⟩ := hpost
      · obtain rfl : k = .semicolon := List.mem_singleton.1 hk
        rw [if_pos (by simp [Token.isKeyword, hclosing])]
        refine ⟨⟨rfl, Nat.le_refl _, hfollows₃.sane⟩, hc.trans ?_⟩
        rw [Work.token, hclosing]
        rfl
      · rw [if_neg (by simp [Token.isKeyword, hclosing])]
        refine meets_fail hfollows₃.sane (hc.trans ?_)
        rw [Work.token, hclosing]
        rfl
    | _ =>
      simp only [ht] at hc ⊢
      exact meets_fail hfollows.sane hc

/-- A conditional is too long for its jumps in both compilations or in none. -/
theorem meets_fitting {c : Compiled} {l : Location} {code : Option (Array Op)}
    (inner : List Frame) (body : Array Op) (hsane : d.compiler.lexer.Sane)
    (hc : c = ((d.work base inner body).closeConditional l frames ops code).result) :
    Meets c d (fun code d' => c = (d'.work base frames (ops ++ code)).run) (fitting l code d) := by
  cases code with
  | some code => exact meets_pure hsane hc
  | none => exact meets_fail hsane hc

/-- The branches of a conditional are compiled as they are with a frame, if the
    statements inside of them are. -/
theorem meets_branches {c : Compiled} {self : List String → Descending (Array Op)} {bound : Nat}
    {l : Location} (hself : Compiles base bound self) (hsane : d.compiler.lexer.Sane)
    (hnesting : frames.countP Frame.isConditional + 1 = d.nesting) (hbound : d.remaining < bound)
    (hc : c = (d.work base (.branch l ops :: frames) #[]).run) :
    Meets c d (fun code d' => c = (d'.work base frames (ops ++ code)).run)
      (branches self l d) := by
  unfold branches
  have hyes := hself c d (.branch l ops) frames hsane
    (by rw [List.countP_cons_of_pos rfl, hnesting]) hbound hc
  refine hyes.bind fun yes d₁ hfollows₁ hpost => ?_
  obtain ⟨hc, hstopped⟩ := hpost
  refine (meets_closing hstopped hc).bind fun t d₂ hfollows₂ hpost => ?_
  obtain ⟨⟨k, hk, ht⟩ | ht, hc⟩ := hpost
  · obtain rfl | rfl : k = .else_ ∨ k = .then_ := by simpa [Frame.stops] using hk
    · rw [if_neg (by simp [Token.isKeyword, ht]), if_pos (by simp [Token.isKeyword, ht])]
      have helse : c = (d₂.work base (.alternative l ops yes :: frames) #[]).run := by
        rw [hc, Work.token, ht]
        rfl
      have hfollows := hfollows₁.trans hfollows₂
      have hno := hself c d₂ (.alternative l ops yes) frames hfollows.sane
        (by rw [List.countP_cons_of_pos rfl, hnesting, hfollows.nesting])
        (Nat.lt_of_le_of_lt hfollows.remaining hbound) helse
      refine hno.bind fun no d₃ hfollows₃ hpost => ?_
      obtain ⟨hc, hstopped⟩ := hpost
      refine (meets_closing hstopped hc).bind fun closing d₄ hfollows₄ hpost => ?_
      obtain ⟨⟨k, hk, hclosing⟩ | hclosing, hc⟩ := hpost
      · obtain rfl : k = .then_ := List.mem_singleton.1 hk
        rw [if_pos (by simp [Token.isKeyword, hclosing])]
        refine meets_fitting (.alternative l ops yes :: frames) no hfollows₄.sane (hc.trans ?_)
        rw [Work.token, hclosing]
        rfl
      · rw [if_neg (by simp [Token.isKeyword, hclosing])]
        refine meets_fail hfollows₄.sane (hc.trans ?_)
        rw [Work.token, hclosing]
        rfl
    · rw [if_pos (by simp [Token.isKeyword, ht])]
      refine meets_fitting (.branch l ops :: frames) yes hfollows₂.sane (hc.trans ?_)
      rw [Work.token, ht]
      rfl
  · rw [if_neg (by simp [Token.isKeyword, ht]), if_neg (by simp [Token.isKeyword, ht])]
    refine meets_fail hfollows₂.sane (hc.trans ?_)
    rw [Work.token, ht]
    rfl

/-- A conditional is compiled as it is with a frame, and refused beyond the same limit. -/
theorem meets_conditional {c : Compiled} {self : List String → Descending (Array Op)} {bound : Nat}
    {l : Location} (hself : Compiles base bound self) (hsane : d.compiler.lexer.Sane)
    (hnesting : frames.countP Frame.isConditional = d.nesting) (hbound : d.remaining < bound)
    (hc : c = ((d.work base frames ops).openConditional l).result) :
    Meets c d (fun code d' => c = (d'.work base frames (ops ++ code)).run)
      (conditional self l d) := by
  have hcount : (d.work base frames ops).nesting = d.nesting := hnesting
  rw [Work.openConditional, hcount] at hc
  unfold conditional
  by_cases hlt : d.nesting < nestingLimit
  · rw [if_pos hlt] at hc ⊢
    have hbranches := meets_branches (d := { d with nesting := d.nesting + 1 }) hself hsane
      (congrArg (· + 1) hnesting) hbound hc
    cases hr : branches self l { d with nesting := d.nesting + 1 } with
    | ok code d' =>
      rw [hr] at hbranches
      obtain ⟨hfollows, hpost⟩ := hbranches
      refine ⟨⟨?_, hfollows.remaining, hfollows.sane⟩, hpost⟩
      exact congrArg (· - 1) hfollows.nesting
    | error e d' =>
      rw [hr] at hbranches
      obtain ⟨hnest, hrest⟩ := hbranches
      exact ⟨congrArg (· - 1) hnest, hrest⟩
  · rw [if_neg hlt] at hc ⊢
    exact meets_fail hsane hc

-- ---------------------------------------------------------------------------
-- Statements
-- ---------------------------------------------------------------------------

theorem run_of_next {t : Token} {l : Lexer} (hnext : Lexer.next d.compiler.lexer = .ok t l) :
    (d.work base frames ops).run =
      (({ d with compiler.lexer := l }.work base frames ops).token t).result := by
  rw [Work.run_eq, Work.step, Work.read, work_compiler, hnext]
  rfl

/-- A keyword that was read and put back is the next token again. -/
theorem meets_unread {c : Compiled} {t : Token} {k : Keyword} {ks : List Keyword}
    (hnext : Lexer.next d.compiler.lexer = .ok t d'.compiler.lexer) (ht : t.payload = .keyword k)
    (hk : k ∈ ks) (hnesting : d'.nesting = d.nesting)
    (hc : c = ((d'.work base frames ops).token t).result) :
    Meets c d (fun ops' d' => c = (d'.work base frames ops').run ∧ Stopped ks d'.compiler.lexer)
      ((do read (Lexer.unread t); return ops : Descending (Array Op)) d') := by
  have hpending := Lexer.pending_next hnext
  have hunread : Lexer.unread t d'.compiler.lexer =
      .ok () { d'.compiler.lexer with pending := some t } := by
    rw [Lexer.unread, hpending]
  have hback : Lexer.next { d'.compiler.lexer with pending := some t } =
      .ok t d'.compiler.lexer := by
    rw [Lexer.next, ← hpending]
  have hrun : (do read (Lexer.unread t); return ops : Descending (Array Op)) d' =
      .ok ops { d' with compiler.lexer := { d'.compiler.lexer with pending := some t } } := by
    change EStateM.bind (read (Lexer.unread t)) (fun _ => pure ops) d' = _
    rw [EStateM.bind, read, hunread]
    rfl
  rw [hrun]
  refine ⟨⟨hnesting, ?_, ?_⟩, ?_, t, _, hback, ?_⟩
  · have hlt := Lexer.remaining_next_lt hnext (by simp [Token.isEnd, ht])
    have hcount : ([t].filter (!·.isEnd)).length ≤ 1 := List.length_filter_le _ _
    simp only [remaining, Lexer.remaining, hpending, Option.toList_some] at hlt ⊢
    exact Nat.le_trans (Nat.add_le_add_left hcount _) hlt
  · intro u hu hend
    cases hu
    cases ht.symm.trans hend
  · rw [hc, run_of_next hback]
  · exact .inl ⟨k, hk, ht, hunread⟩

/-- Statements up to a stop are compiled as they are with frames, if the bound is larger
    than the number of tokens left. -/
theorem meets_statements {c : Compiled} {bound : Nat} {stops : List String}
    (hsane : d.compiler.lexer.Sane) (hnesting : frames.countP Frame.isConditional = d.nesting)
    (hstops : ∀ k : Keyword, k.text ∈ stops ↔ k ∈ (d.work base frames ops).innerStops)
    (hbound : d.remaining < bound) (hc : c = (d.work base frames ops).run) :
    Meets c d (fun ops' d' => c = (d'.work base frames ops').run ∧
        Stopped (d.work base frames ops).innerStops d'.compiler.lexer)
      (statements bound stops ops d) := by
  induction bound generalizing c d frames stops ops with
  | zero => cases hbound
  | succ bound ih =>
    have hself : Compiles base bound (statements bound · #[]) :=
      fun c' d' f frames' hsane' hnesting' hbound' hc' =>
        ih hsane' hnesting' (fun k => Keyword.text_mem_map) hbound' hc'
    -- behind the first statement the rest is compiled with a smaller bound
    have hrest (d' : Descent) (ops' : Array Op) (hfollows : d.Follows d')
        (hlt : d'.remaining < bound) (hc : c = (d'.work base frames ops').run) :
        Meets c d' (fun ops' d' => c = (d'.work base frames ops').run ∧
            Stopped (d.work base frames ops).innerStops d'.compiler.lexer)
          (statements bound stops ops' d') :=
      ih hfollows.sane (hnesting.trans hfollows.nesting.symm) hstops hlt hc
    rw [Work.run_eq] at hc
    unfold statements
    refine (meets_next hc).andThen fun t d₁ hfollows hpost => ?_
    obtain ⟨hnext, hc⟩ := hpost
    have hnesting₁ : frames.countP Frame.isConditional = d₁.nesting :=
      hnesting.trans hfollows.nesting.symm
    have hbound₁ : t.isEnd = false → d₁.remaining < bound := fun hend =>
      Nat.lt_of_lt_of_le (Lexer.remaining_next_lt hnext hend) (Nat.le_of_lt_succ hbound)
    cases ht : t.payload with
    | integer n =>
      simp only [Work.token, ht] at hc ⊢
      exact (hrest d₁ _ hfollows (hbound₁ (by simp [Token.isEnd, ht])) hc).of_follows hfollows
    | string text =>
      simp only [Work.token, ht] at hc ⊢
      exact (hrest d₁ _ hfollows (hbound₁ (by simp [Token.isEnd, ht])) hc).of_follows hfollows
    | identifier name =>
      have hlt := hbound₁ (by simp [Token.isEnd, ht])
      simp only [Work.token, ht] at hc ⊢
      refine .of_follows hfollows ?_
      refine (meets_identifier hfollows.sane hc).bind fun op d₂ hfollows₂ hc => ?_
      exact hrest d₂ _ (hfollows.trans hfollows₂) (Nat.lt_of_le_of_lt hfollows₂.remaining hlt) hc
    | keyword k =>
      have hlt := hbound₁ (by simp [Token.isEnd, ht])
      by_cases hk : k.text ∈ stops
      · simp only [hk, if_true]
        exact meets_unread hnext ht ((hstops k).1 hk) hfollows.nesting hc
      · have hinner : k ∉ (d₁.work base frames ops).innerStops := fun h => hk ((hstops k).2 h)
        simp only [Work.token, ht, hk, hinner, if_false] at hc ⊢
        refine .of_follows hfollows ?_
        cases k with
        | colon =>
          refine (meets_definition hself hfollows.sane hnesting₁ hlt hc).bind
            fun _ d₂ hfollows₂ hc => ?_
          exact hrest d₂ _ (hfollows.trans hfollows₂)
            (Nat.lt_of_le_of_lt hfollows₂.remaining hlt) hc
        | if_ =>
          refine (meets_conditional hself hfollows.sane hnesting₁ hlt hc).bind
            fun code d₂ hfollows₂ hc => ?_
          exact hrest d₂ _ (hfollows.trans hfollows₂)
            (Nat.lt_of_le_of_lt hfollows₂.remaining hlt) hc
        | semicolon => exact meets_get_bind (meets_fail hfollows.sane hc)
        | else_ => exact meets_fail hfollows.sane hc
        | then_ => exact meets_fail hfollows.sane hc
        | closeParen => exact meets_fail hfollows.sane hc
    | endOfInput =>
      have hagain := hsane.next_end hnext ht
      refine .of_follows hfollows (meets_pure hfollows.sane ⟨?_, t, _, hagain, .inr ⟨ht, rfl⟩⟩)
      exact hc.trans (run_of_next hagain).symm

-- ---------------------------------------------------------------------------
-- Calls
-- ---------------------------------------------------------------------------

/-- What a compilation that starts outside of all constructs leaves behind. -/
def ofCompiled : Compiled → EStateM.Result SyntaxError Descent (List Op)
  | .ok code c => .ok code { compiler := c }
  | .error e c => .error e { compiler := c }

@[simp] theorem leftBy_ofCompiled (r : Compiled) :
    leftBy (ofCompiled r) = { compiler := leftBy r } := by
  cases r <;> rfl

/-- A compilation outside of all constructs ends in front of a stop. -/
theorem run_of_stopped {ks : List Keyword} (h : Stopped ks d.compiler.lexer) :
    (d.work ks [] ops).run = .ok ops.toList d.compiler := by
  obtain ⟨t, l, hnext, ⟨k, hk, ht, hunread⟩ | ⟨ht, rfl⟩⟩ := h
  · have hstop : k ∈ ({ d with compiler.lexer := l }.work ks [] ops).innerStops := hk
    rw [run_of_next hnext, Work.token_of_stop ht hstop]
    simp only [Work.stop, work, Work.read, hunread, Progress.result]
  · rw [run_of_next hnext, Work.token, ht]
    rfl

theorem compile_of_ok {stops : List String}
    (h : statements (d.remaining + 1) stops #[] d = .ok ops d') :
    compile stops d = .ok ops.toList d' := by
  change EStateM.bind (statements (d.remaining + 1) stops #[]) (fun ops => pure ops.toList) d = _
  rw [EStateM.bind, h]
  rfl

theorem compile_of_error {stops : List String} {e : SyntaxError}
    (h : statements (d.remaining + 1) stops #[] d = .error e d') :
    compile stops d = .error e d' := by
  change EStateM.bind (statements (d.remaining + 1) stops #[]) (fun ops => pure ops.toList) d = _
  rw [EStateM.bind, h]

theorem text_mem_iff (k : Keyword) (stops : List String) :
    k.text ∈ stops ↔ k ∈ stops.filterMap Keyword.ofText? := by
  rw [List.mem_filterMap]
  constructor
  · exact fun h => ⟨k.text, h, k.ofText?_text⟩
  · rintro ⟨s, hs, hk⟩
    have htext : k.text = s := by simpa using List.find?_some hk
    exact htext ▸ hs

/-- The compiler by recursive descent gives what the one with frames gives. -/
theorem compile_eq (hsane : d.compiler.lexer.Sane) (hnesting : d.nesting = 0)
    (stops : List String) :
    compile stops d = ofCompiled (Compiler.compile (stops.filterMap Keyword.ofText?) d.compiler) ∧
      (leftBy (compile stops d)).compiler.lexer.Sane := by
  have hcount : ([] : List Frame).countP Frame.isConditional = d.nesting := hnesting.symm
  have hstatements := meets_statements (c := (d.work _ [] #[]).run) hsane hcount
    (fun k => text_mem_iff k stops) (Nat.lt_succ_self d.remaining) rfl
  change compile stops d = ofCompiled (d.work (stops.filterMap Keyword.ofText?) [] #[]).run ∧ _
  cases hr : statements (d.remaining + 1) stops #[] d with
  | ok ops d' =>
    rw [hr] at hstatements
    obtain ⟨hfollows, hrun, hstopped⟩ := hstatements
    have hend : (d'.work _ [] ops).run = _ := run_of_stopped hstopped
    rw [compile_of_ok hr, hrun]
    refine ⟨?_, hfollows.sane⟩
    refine Eq.trans ?_ (congrArg ofCompiled hend).symm
    rw [ofCompiled, ← hnesting, ← hfollows.nesting]
  | error e d' =>
    rw [hr] at hstatements
    obtain ⟨hnest, hsane', hrun⟩ := hstatements
    rw [compile_of_error hr, hrun]
    refine ⟨?_, hsane'⟩
    rw [ofCompiled, ← hnesting, ← hnest]

end Descent

end Forth
