-- SUMMARY: Rounds of the compiler: its loop and its calls of itself come to an end, and are never nested deeper than allowed.
import Forth.Proofs.Calls

/-!
# Rounds

The compiler by recursive descent is a loop of rounds. A round reads a token, and may
call the compiler for the statements inside of a construct. Without the bound that the
loop is given, it comes to a result if finitely many rounds and calls lead there.

What is left to read decides: a round that goes on leaves less of it, and so does a call
in front of its first round. A token that is put back counts again, but it is only put
back by a round that ends its loop, and what was read in front of the loop is gone.
-/

namespace Forth.Descent

variable {α β : Type} {d d' : Descent} {stops : List String} {ops : Array Op}
  {self : List String → Descending (Array Op)}

-- ---------------------------------------------------------------------------
-- Parts one after the other
-- ---------------------------------------------------------------------------

theorem bind_eq_ok {x : Descending α} {f : α → Descending β} {b : β}
    (h : (x >>= f) d = .ok b d') : ∃ a d₁, x d = .ok a d₁ ∧ f a d₁ = .ok b d' := by
  change EStateM.bind x f d = _ at h
  unfold EStateM.bind at h
  split at h
  · next a d₁ hx => exact ⟨a, d₁, hx, h⟩
  · cases h

theorem bind_congr {x x' : Descending α} {f f' : α → Descending β} (hx : x' d = x d)
    (hf : ∀ a d₁, x d = .ok a d₁ → f' a d₁ = f a d₁) : (x' >>= f') d = (x >>= f) d := by
  change EStateM.bind x' f' d = EStateM.bind x f d
  unfold EStateM.bind
  rw [hx]
  cases hr : x d with
  | ok a d₁ => exact hf a d₁ hr
  | error e d₁ => rfl

-- ---------------------------------------------------------------------------
-- What a part leaves as it was
-- ---------------------------------------------------------------------------

/-- `d'` comes behind `d`, inside of the same constructs. -/
structure Rejoins (d d' : Descent) : Prop where
  remaining : d'.remaining ≤ d.remaining
  nesting : d'.nesting = d.nesting
  defining : d'.compiler.defining = d.compiler.defining

theorem Rejoins.refl (d : Descent) : d.Rejoins d :=
  ⟨Nat.le_refl _, rfl, rfl⟩

theorem Rejoins.trans {d'' : Descent} (h : d.Rejoins d') (h' : d'.Rejoins d'') : d.Rejoins d'' where
  remaining := Nat.le_trans h'.remaining h.remaining
  nesting := h'.nesting.trans h.nesting
  defining := h'.defining.trans h.defining

/-- If the part gives a result, it has closed all constructs that it opened. -/
def Steady (x : Descending α) : Prop :=
  ∀ d a d', x d = .ok a d' → d.Rejoins d'

theorem steady_pure (a : α) : Steady (pure a) := by
  intro d b d' h
  cases h
  exact .refl d

theorem steady_fail (l : Location) (fault : SyntaxFault) : Steady (fail l fault : Descending α) := by
  intro d a d' h
  cases h

theorem Steady.bind {x : Descending α} {f : α → Descending β} (hx : Steady x)
    (hf : ∀ a, Steady (f a)) : Steady (x >>= f) := by
  intro d b d' h
  obtain ⟨a, d₁, hx', hf'⟩ := bind_eq_ok h
  exact (hx d a d₁ hx').trans (hf a d₁ b d' hf')

theorem read_eq_ok {f : EStateM SyntaxError Lexer α} {a : α} (h : read f d = .ok a d') :
    f d.compiler.lexer = .ok a d'.compiler.lexer ∧
      d' = { d with compiler.lexer := d'.compiler.lexer } := by
  unfold read at h
  split at h
  · next hf => cases h; exact ⟨hf, rfl⟩
  · cases h

theorem steady_read {f : EStateM SyntaxError Lexer α}
    (hf : ∀ l a l', f l = .ok a l' → l'.remaining ≤ l.remaining) : Steady (read f) := by
  intro d a d' h
  obtain ⟨hread, hd'⟩ := read_eq_ok h
  rw [hd']
  exact ⟨hf _ _ _ hread, rfl, rfl⟩

theorem steady_next : Steady (read Lexer.next) :=
  steady_read fun _ _ _ => Lexer.remaining_next_le

theorem steady_peek : Steady (read Lexer.peek) :=
  steady_read fun _ _ _ => Lexer.remaining_peek_le

theorem steady_identifier (name : String) : Steady (identifier name) := by
  unfold identifier
  split
  · exact steady_pure _
  · refine steady_peek.bind fun t => ?_
    split
    · exact steady_next.bind fun _ => steady_pure _
    · split
      · exact steady_next.bind fun _ => steady_pure _
      · exact steady_pure _

theorem steady_fitting (l : Location) (code : Option (Array Op)) : Steady (fitting l code) := by
  cases code with
  | some code => exact steady_pure code
  | none => exact steady_fail l _

theorem steady_branches (hself : ∀ stops, Steady (self stops)) (l : Location) :
    Steady (branches self l) := by
  refine (hself _).bind fun yes => steady_next.bind fun t => ?_
  split
  · exact steady_fitting _ _
  · split
    · refine (hself _).bind fun no => steady_next.bind fun closing => ?_
      split
      · exact steady_fitting _ _
      · exact steady_fail _ _
    · exact steady_fail _ _

/-- A conditional is closed when its result is given, and no longer counted. -/
theorem steady_conditional (hself : ∀ stops, Steady (self stops)) (l : Location) :
    Steady (conditional self l) := by
  intro d code d' h
  unfold conditional at h
  split at h
  · split at h
    · next hbranches =>
      cases h
      have hinside := steady_branches hself l _ _ _ hbranches
      exact ⟨hinside.remaining, congrArg (· - 1) hinside.nesting, hinside.defining⟩
    · cases h
  · cases h

theorem steady_definition (hself : ∀ stops, Steady (self stops)) (l : Location) :
    Steady (definition self l) := by
  intro d u d' h
  obtain ⟨_, _, hget, h⟩ := bind_eq_ok h
  cases hget
  split at h
  · cases h
  · next hdefining =>
    obtain ⟨t, d₁, ht, h⟩ := bind_eq_ok h
    have hname := steady_next _ _ _ ht
    cases hpayload : t.payload with
    | identifier name =>
      simp only [hpayload] at h
      obtain ⟨_, _, hbegin, h⟩ := bind_eq_ok h
      cases hbegin
      obtain ⟨body, d₂, hbody, h⟩ := bind_eq_ok h
      obtain ⟨closing, d₃, hclosing, h⟩ := bind_eq_ok h
      have hinside := (hself _ _ _ _ hbody).trans (steady_next _ _ _ hclosing)
      split at h
      · cases h
        exact ⟨Nat.le_trans hinside.remaining hname.remaining,
          hinside.nesting.trans hname.nesting, (Bool.eq_false_iff.2 hdefining).symm⟩
      · cases h
    | _ =>
      simp only [hpayload] at h
      cases h

-- ---------------------------------------------------------------------------
-- Rounds
-- ---------------------------------------------------------------------------

/-- How a round ends if it does not fail: the loop goes on behind `ops`, or it is done. -/
inductive Round where
  | more (ops : Array Op)
  | done (ops : Array Op)

/-- The statement whose first token is `t`, behind `ops`. The statements inside of a construct
    are compiled by `self`. A stop word is put back. -/
def statement (self : List String → Descending (Array Op)) (stops : List String) (ops : Array Op)
    (t : Token) : Descending Round :=
  match t.payload with
  | .integer n => return .more (ops.push (.push (.int n)))
  | .string s => return .more (ops.push (.push (.str s)))
  | .identifier name => do
    let op ← identifier name
    return .more (ops.push op)
  | .keyword k =>
    if k.text ∈ stops then do
      read (Lexer.unread t)
      return .done ops
    else
      match k with
      | .colon => do
        definition self t.location
        return .more ops
      | .if_ => do
        let code ← conditional self t.location
        return .more (ops ++ code)
      | .semicolon => do
        let d ← get
        fail t.location
          (if d.compiler.defining then .semicolonInConditional else .semicolonOutside)
      | .else_ | .then_ => fail t.location (.unmatched k)
      | .closeParen => fail t.location (.unexpected k)
  | .endOfInput => return .done ops

def round (self : List String → Descending (Array Op)) (stops : List String) (ops : Array Op) :
    Descending Round :=
  read Lexer.next >>= statement self stops ops

/-- The loop behind a round, if `rest` goes on with it. -/
def Round.andThen (rest : Array Op → Descending (Array Op)) : Round → Descending (Array Op)
  | more ops => rest ops
  | done ops => pure ops

theorem fail_bind (l : Location) (fault : SyntaxFault) (f : α → Descending β) :
    (fail l fault >>= f) = fail l fault := rfl

/-- The loop of the compiler is a loop of rounds. -/
theorem statements_succ (bound : Nat) (stops : List String) (ops : Array Op) :
    statements (bound + 1) stops ops =
      round (statements bound · #[]) stops ops >>= Round.andThen (statements bound stops) := by
  rw [statements, round, bind_assoc]
  refine congrArg _ (funext fun t => ?_)
  unfold statement
  cases t.payload with
  | integer n => rfl
  | string s => rfl
  | identifier name => simp only [bind_assoc, pure_bind, Round.andThen]
  | keyword k =>
    by_cases hk : k.text ∈ stops
    · simp only [hk, if_true, bind_assoc, pure_bind, Round.andThen]
    · simp only [hk, if_false]
      cases k <;> simp only [bind_assoc, pure_bind, Round.andThen, fail_bind]
  | endOfInput => rfl

/-- A round behind which the loop goes on has closed what it opened, if its part has. -/
theorem more_of_steady {x : Descending α} {f : α → Array Op} {r : Round} (hx : Steady x)
    (h : (do return .more (f (← x)) : Descending Round) d = .ok r d') :
    ∃ ops', r = .more ops' ∧ d.Rejoins d' := by
  obtain ⟨a, d₁, ha, h⟩ := bind_eq_ok h
  cases h
  exact ⟨f a, rfl, hx _ _ _ ha⟩

/-- What a statement leaves behind its first token, if it does not fail. -/
theorem statement_eq_ok (hself : ∀ stops, Steady (self stops)) {t : Token} {r : Round}
    (h : statement self stops ops t d = .ok r d') :
    (t.isEnd = false ∧ ∃ ops', r = .more ops' ∧ d.Rejoins d') ∨
      r = .done ops ∧ (d' = d ∨ read (Lexer.unread t) d = .ok () d') := by
  unfold statement at h
  cases ht : t.payload with
  | integer n =>
    simp only [ht] at h
    cases h
    exact .inl ⟨by simp [Token.isEnd, ht], _, rfl, .refl d⟩
  | string s =>
    simp only [ht] at h
    cases h
    exact .inl ⟨by simp [Token.isEnd, ht], _, rfl, .refl d⟩
  | identifier name =>
    simp only [ht] at h
    exact .inl ⟨by simp [Token.isEnd, ht], more_of_steady (steady_identifier name) h⟩
  | keyword k =>
    have hend : t.isEnd = false := by simp [Token.isEnd, ht]
    simp only [ht] at h
    split at h
    · obtain ⟨_, d₁, hunread, h⟩ := bind_eq_ok h
      cases h
      exact .inr ⟨rfl, .inr hunread⟩
    · cases k with
      | colon => exact .inl ⟨hend, more_of_steady (steady_definition hself t.location) h⟩
      | if_ => exact .inl ⟨hend, more_of_steady (steady_conditional hself t.location) h⟩
      | _ => cases h
  | endOfInput =>
    simp only [ht] at h
    cases h
    exact .inr ⟨rfl, .inl rfl⟩

/-- Putting back the token that was read last leaves no more than there was. -/
theorem remaining_unread_le {l l₁ l₂ : Lexer} {t : Token} (hnext : l.next = .ok t l₁)
    (hunread : l₁.unread t = .ok () l₂) : l₂.remaining ≤ l.remaining := by
  have hpending := Lexer.pending_next hnext
  rw [Lexer.unread, hpending] at hunread
  cases hunread
  have hread : l₁.remaining = l₁.lexemes.length := by
    rw [Lexer.remaining, hpending]
    rfl
  change l₁.lexemes.length + ([t].filter (!·.isEnd)).length ≤ _
  rw [← hread]
  cases hend : t.isEnd with
  | true =>
    rw [List.filter_cons_of_neg (by simp [hend])]
    exact Lexer.remaining_next_le hnext
  | false =>
    have hcount : ([t].filter (!·.isEnd)).length ≤ 1 := List.length_filter_le _ _
    exact Nat.le_trans (Nat.add_le_add_left hcount _) (Lexer.remaining_next_lt hnext hend)

/-- A round that goes on has read a token for good. One that is done has read none: its
    first token is put back, or it is the end of the input. -/
theorem round_eq_ok (hself : ∀ stops, Steady (self stops)) {r : Round}
    (h : round self stops ops d = .ok r d') :
    d.Rejoins d' ∧ ∀ ops', r = .more ops' → d'.remaining < d.remaining := by
  obtain ⟨t, d₁, ht, h⟩ := bind_eq_ok h
  have hread := steady_next _ _ _ ht
  obtain ⟨hnext, -⟩ := read_eq_ok ht
  obtain ⟨hend, ops', rfl, hrest⟩ | ⟨rfl, hdone⟩ := statement_eq_ok hself h
  · exact ⟨hread.trans hrest, fun _ _ =>
      Nat.lt_of_le_of_lt hrest.remaining (Lexer.remaining_next_lt hnext hend)⟩
  · refine ⟨?_, fun _ h => Round.noConfusion h⟩
    obtain rfl | hback := hdone
    · exact hread
    · obtain ⟨hunread, hd'⟩ := read_eq_ok hback
      have hle := remaining_unread_le hnext hunread
      rw [hd']
      exact ⟨hle, hread.nesting, hread.defining⟩

/-- Statements close all constructs that they open. -/
theorem steady_statements (bound : Nat) (stops : List String) (ops : Array Op) :
    Steady (statements bound stops ops) := by
  induction bound generalizing stops ops with
  | zero => exact steady_pure ops
  | succ bound ih =>
    rw [statements_succ]
    intro d code d' h
    obtain ⟨r, d₁, hround, h⟩ := bind_eq_ok h
    obtain ⟨hrejoins, -⟩ := round_eq_ok (fun stops => ih stops #[]) hround
    cases r with
    | more ops' => exact hrejoins.trans (ih stops ops' _ _ _ h)
    | done ops' => cases h; exact hrejoins

-- ---------------------------------------------------------------------------
-- Calls inside of a round
-- ---------------------------------------------------------------------------

/-- What the compiler calls itself for. -/
inductive Purpose where
  | definition
  | conditional
  deriving DecidableEq

/-- How the state in front of a call's first round, `d'`, differs from the state in front of
    the round that makes the call. -/
def Purpose.Opens (d d' : Descent) : Purpose → Prop
  | definition => d.compiler.defining = false ∧ d'.compiler.defining = true ∧
      d'.nesting = d.nesting
  | conditional => d'.compiler.defining = d.compiler.defining ∧ d'.nesting = d.nesting + 1 ∧
      d'.nesting ≤ nestingLimit

/-- A round in front of `d` calls the compiler for a construct, in front of another token and
    with other stop words. What follows an `else` is a call behind the one for what follows
    the `if`, and inside of the same round. -/
inductive Enters (self : List String → Descending (Array Op)) (stops : List String) (d : Descent) :
    Purpose → List String → Descent → Prop where
  | definition {t name : Token} {text : String} {d₁ d₂ : Descent} :
      read Lexer.next d = .ok t d₁ → t.payload = .keyword .colon → Keyword.colon.text ∉ stops →
      d₁.compiler.defining = false →
      read Lexer.next d₁ = .ok name d₂ → name.payload = .identifier text →
      Enters self stops d .definition [";"] { d₂ with compiler.defining := true }
  | branch {t : Token} {d₁ : Descent} :
      read Lexer.next d = .ok t d₁ → t.payload = .keyword .if_ → Keyword.if_.text ∉ stops →
      d₁.nesting < nestingLimit →
      Enters self stops d .conditional ["else", "then"] { d₁ with nesting := d₁.nesting + 1 }
  | alternative {t : Token} {yes : Array Op} {d₁ d₂ d₃ : Descent} :
      Enters self stops d .conditional ["else", "then"] d₁ →
      self ["else", "then"] d₁ = .ok yes d₂ →
      read Lexer.next d₂ = .ok t d₃ → t.isKeyword .else_ = true →
      Enters self stops d .conditional ["then"] d₃

variable {self' : List String → Descending (Array Op)} {purpose : Purpose}
  {stops' : List String}

/-- A call starts with less to read than its round, and counts its construct. -/
theorem Enters.opens (hself : ∀ stops, Steady (self stops))
    (h : Enters self stops d purpose stops' d') :
    d'.remaining < d.remaining ∧ purpose.Opens d d' := by
  induction h with
  | definition ht hcolon _ hdefining hname _ =>
    have hread := steady_next _ _ _ ht
    have hread' := steady_next _ _ _ hname
    have hlt := Lexer.remaining_next_lt (read_eq_ok ht).1 (by simp [Token.isEnd, hcolon])
    exact ⟨Nat.lt_of_le_of_lt hread'.remaining hlt, hread.defining ▸ hdefining, rfl,
      hread'.nesting.trans hread.nesting⟩
  | branch ht hif _ hnesting =>
    have hread := steady_next _ _ _ ht
    have hlt := Lexer.remaining_next_lt (read_eq_ok ht).1 (by simp [Token.isEnd, hif])
    exact ⟨hlt, hread.defining, congrArg (· + 1) hread.nesting, hnesting⟩
  | alternative _ hyes ht _ ih =>
    obtain ⟨hlt, hdefining, hnesting, hle⟩ := ih
    have hrejoins := (hself _ _ _ _ hyes).trans (steady_next _ _ _ ht)
    exact ⟨Nat.lt_of_le_of_lt hrejoins.remaining hlt, hrejoins.defining.trans hdefining,
      hrejoins.nesting.trans hnesting, hrejoins.nesting.symm ▸ hle⟩

/-- A definition is the same with other calls, if they are the same for its body. -/
theorem definition_congr {l : Location}
    (h : ∀ t text d₁, d.compiler.defining = false → read Lexer.next d = .ok t d₁ →
      t.payload = .identifier text →
      self' [";"] { d₁ with compiler.defining := true } =
        self [";"] { d₁ with compiler.defining := true }) :
    definition self' l d = definition self l d := by
  refine bind_congr rfl fun d₀ _ hget => ?_
  cases hget
  by_cases hdefining : d.compiler.defining = true
  · rw [if_pos hdefining, if_pos hdefining]
  · rw [if_neg hdefining, if_neg hdefining]
    refine bind_congr rfl fun t d₁ ht => ?_
    cases hpayload : t.payload with
    | identifier text =>
      refine bind_congr rfl fun _ d₂ hbegin => ?_
      cases hbegin
      exact bind_congr (h t text d₁ (Bool.eq_false_iff.2 hdefining) ht hpayload) fun _ _ _ => rfl
    | _ => rfl

/-- The branches of a conditional are the same with other calls, if they are the same
    for both of them. -/
theorem branches_congr {l : Location}
    (hyes : self' ["else", "then"] d = self ["else", "then"] d)
    (hno : ∀ yes d₁ t d₂, self ["else", "then"] d = .ok yes d₁ → read Lexer.next d₁ = .ok t d₂ →
      t.isKeyword .else_ = true → self' ["then"] d₂ = self ["then"] d₂) :
    branches self' l d = branches self l d := by
  refine bind_congr hyes fun yes d₁ hyes' => bind_congr rfl fun t d₂ ht => ?_
  by_cases hthen : t.isKeyword .then_ = true
  · rw [if_pos hthen, if_pos hthen]
  · rw [if_neg hthen, if_neg hthen]
    by_cases helse : t.isKeyword .else_ = true
    · rw [if_pos helse, if_pos helse]
      exact bind_congr (hno yes d₁ t d₂ hyes' ht helse) fun _ _ _ => rfl
    · rw [if_neg helse, if_neg helse]

/-- A round only depends on the calls that it makes. -/
theorem round_congr
    (h : ∀ purpose stops' d', Enters self stops d purpose stops' d' →
      self' stops' d' = self stops' d') :
    round self' stops ops d = round self stops ops d := by
  refine bind_congr rfl fun t d₁ ht => ?_
  unfold statement
  cases hpayload : t.payload with
  | keyword k =>
    by_cases hk : k.text ∈ stops
    · simp only [hk, if_true]
    · simp only [hk, if_false]
      cases k with
      | colon =>
        refine bind_congr (definition_congr fun name text d₂ hdefining hname htext => ?_)
          fun _ _ _ => rfl
        exact h _ _ _ (.definition ht hpayload hk hdefining hname htext)
      | if_ =>
        refine bind_congr ?_ fun _ _ _ => rfl
        unfold conditional
        split
        · next hnesting =>
          have henters : Enters self stops d .conditional _ _ :=
            .branch ht hpayload hk hnesting
          rw [branches_congr (h _ _ _ henters) fun yes d₂ u d₃ hyes hu helse =>
            h _ _ _ (henters.alternative hyes hu helse)]
        · rfl
      | _ => rfl
  | _ => rfl

-- ---------------------------------------------------------------------------
-- The loop without its bound
-- ---------------------------------------------------------------------------

/-- Any bound above what is left to read gives the same result. -/
theorem statements_bound {bound bound' : Nat} (h : d.remaining < bound)
    (h' : d.remaining < bound') : statements bound' stops ops d = statements bound stops ops d := by
  induction bound generalizing bound' d stops ops with
  | zero => cases h
  | succ bound ih =>
    obtain _ | bound' := bound'
    · cases h'
    have hself (stops : List String) : Steady (statements bound stops #[]) :=
      steady_statements bound stops #[]
    -- both loops go on, and call, with less to read than their bounds
    have hless {d₁ : Descent} (hlt : d₁.remaining < d.remaining) :
        d₁.remaining < bound ∧ d₁.remaining < bound' :=
      ⟨Nat.lt_of_lt_of_le hlt (Nat.le_of_lt_succ h), Nat.lt_of_lt_of_le hlt (Nat.le_of_lt_succ h')⟩
    rw [statements_succ, statements_succ]
    refine bind_congr (round_congr fun purpose stops' d₁ henters => ?_) fun r d₁ hround => ?_
    · have hlt := hless (henters.opens hself).1
      exact ih hlt.1 hlt.2
    · cases r with
      | more ops' =>
        have hlt := hless ((round_eq_ok hself hround).2 ops' rfl)
        exact ih hlt.1 hlt.2
      | done ops' => rfl

/-- The loop with as large a bound as it needs. -/
def loop (stops : List String) (ops : Array Op) : Descending (Array Op) := fun d =>
  statements (d.remaining + 1) stops ops d

theorem steady_loop (stops : List String) : Steady (loop stops #[]) :=
  fun d => steady_statements (d.remaining + 1) stops #[] d

/-- The loop of rounds, whose calls are loops of the same kind. -/
theorem loop_eq : loop stops ops d =
    (round (loop · #[]) stops ops >>= Round.andThen (loop stops)) d := by
  change statements (d.remaining + 1) stops ops d = _
  rw [statements_succ]
  refine bind_congr (round_congr fun purpose stops' d₁ henters => ?_) fun r d₁ hround => ?_
  · exact statements_bound (Nat.lt_succ_self _) (henters.opens steady_loop).1
  · cases r with
    | more ops' =>
      exact statements_bound (Nat.lt_succ_self _) ((round_eq_ok steady_loop hround).2 ops' rfl)
    | done ops' => rfl

/-- What the loop behind `ops` comes to, without a bound: the result of a round and of the
    rounds behind it. `self` and `rest` stand for what the calls of the round and the loop
    behind it come to. A derivation is finite, so it counts finitely many rounds and calls. -/
inductive Evaluates : List String → Array Op → Descent →
    EStateM.Result SyntaxError Descent (Array Op) → Prop where
  | step {self : List String → Descending (Array Op)} {rest : Array Op → Descending (Array Op)}
      {stops : List String} {ops : Array Op} {d : Descent} :
      (∀ purpose stops' d', Enters self stops d purpose stops' d' →
        Evaluates stops' #[] d' (self stops' d')) →
      (∀ ops' d', round self stops ops d = .ok (.more ops') d' →
        Evaluates stops ops' d' (rest ops' d')) →
      Evaluates stops ops d ((round self stops ops >>= Round.andThen rest) d)

/-- The induction is on what is left to read, which is less in front of every call and in
    front of the next round. -/
theorem evaluates_loop (stops : List String) (ops : Array Op) (d : Descent) :
    Evaluates stops ops d (loop stops ops d) := by
  induction hn : d.remaining using Nat.strongRecOn generalizing stops ops d with
  | ind n ih =>
    subst hn
    rw [loop_eq]
    refine .step (fun purpose stops' d' henters => ?_) fun ops' d' hround => ?_
    · exact ih _ (henters.opens steady_loop).1 stops' #[] d' rfl
    · exact ih _ ((round_eq_ok steady_loop hround).2 ops' rfl) stops ops' d' rfl

/-- What the loop comes to, counted round by round, is its result. -/
theorem Evaluates.eq_loop {r : EStateM.Result SyntaxError Descent (Array Op)}
    (h : Evaluates stops ops d r) : r = loop stops ops d := by
  induction h with
  | step _ _ ihcalls ihrest =>
    rw [loop_eq]
    refine (bind_congr (round_congr fun purpose stops' d' henters => ?_)
      fun r d' hround => ?_).symm
    · exact (ihcalls purpose stops' d' henters).symm
    · cases r with
      | more ops' => exact (ihrest ops' d' hround).symm
      | done ops' => rfl

def listed : EStateM.Result SyntaxError Descent (Array Op) →
    EStateM.Result SyntaxError Descent (List Op)
  | .ok ops d => .ok ops.toList d
  | .error e d => .error e d

/-- A call is its loop from no code on. -/
theorem compile_eq_listed (stops : List String) (d : Descent) :
    compile stops d = listed (loop stops #[] d) := by
  change EStateM.bind (statements (d.remaining + 1) stops #[]) (fun ops => pure ops.toList) d =
    listed (statements (d.remaining + 1) stops #[] d)
  unfold EStateM.bind
  cases statements (d.remaining + 1) stops #[] d <;> rfl

-- ---------------------------------------------------------------------------
-- Calls that have not ended
-- ---------------------------------------------------------------------------

/-- A call that has not ended: what it is for, unless it is the outermost one, and where it
    stands in front of its present round. -/
structure Activation where
  purpose : Option Purpose
  stops : List String
  ops : Array Op
  state : Descent

/-- At some point of the compilation in front of `d`, the calls that have not ended are `a`
    and, around it, `outer`. A round of `a` that goes on has ended all calls that it made. -/
inductive Active (stops : List String) (d : Descent) : Activation → List Activation → Prop where
  | outermost : Active stops d ⟨none, stops, #[], d⟩ []
  | round {a : Activation} {outer : List Activation} {ops' : Array Op} {d' : Descent} :
      Active stops d a outer →
      Descent.round (loop · #[]) a.stops a.ops a.state = .ok (.more ops') d' →
      Active stops d { a with ops := ops', state := d' } outer
  | call {a : Activation} {outer : List Activation} {purpose : Purpose} {stops' : List String}
      {d' : Descent} :
      Active stops d a outer → Enters (loop · #[]) a.stops a.state purpose stops' d' →
      Active stops d ⟨some purpose, stops', #[], d'⟩ (a :: outer)

def callsFor (purpose : Purpose) (calls : List Activation) : Nat :=
  calls.countP (·.purpose = some purpose)

/-- `d` counts the calls that have not ended. -/
structure Counts (d : Descent) (calls : List Activation) : Prop where
  conditionals : callsFor .conditional calls = d.nesting
  nesting_le : d.nesting ≤ nestingLimit
  definitions : callsFor .definition calls ≤ d.compiler.defining.toNat
  length : calls.length = callsFor .conditional calls + callsFor .definition calls + 1

variable {calls : List Activation}

theorem callsFor_cons (a : Activation) : callsFor purpose (a :: calls) =
    callsFor purpose calls + if a.purpose = some purpose then 1 else 0 := by
  simp only [callsFor, List.countP_cons, decide_eq_true_eq]

/-- A round that goes on leaves the count of open calls right. -/
theorem Counts.round {a : Activation} {ops' : Array Op} (h : d.Counts (a :: calls))
    (hd : d.Rejoins d') : d'.Counts ({ a with ops := ops', state := d' } :: calls) where
  conditionals := h.conditionals.trans hd.nesting.symm
  nesting_le := hd.nesting.symm ▸ h.nesting_le
  definitions := hd.defining.symm ▸ h.definitions
  length := h.length

/-- A call for a construct is counted as its purpose says. -/
theorem Counts.call {a : Activation} (h : d.Counts calls) (ha : a.purpose = some purpose)
    (hopens : purpose.Opens d d') : d'.Counts (a :: calls) := by
  obtain ⟨hconditionals, hle, hdefinitions, hlength⟩ := h
  have hlength' : (a :: calls).length = calls.length + 1 := rfl
  cases purpose with
  | definition =>
    obtain ⟨hclosed, hopen, hnesting⟩ := hopens
    have hconditionals' : callsFor .conditional (a :: calls) = callsFor .conditional calls := by
      simp [callsFor_cons, ha]
    have hdefinitions' : callsFor .definition (a :: calls) = callsFor .definition calls + 1 := by
      simp [callsFor_cons, ha]
    rw [hclosed, Bool.toNat_false] at hdefinitions
    refine ⟨?_, ?_, ?_, ?_⟩
    · rw [hconditionals', hconditionals, hnesting]
    · rwa [hnesting]
    · rw [hdefinitions', hopen, Bool.toNat_true]
      exact Nat.succ_le_succ hdefinitions
    · omega
  | conditional =>
    obtain ⟨hdefining, hnesting, hlimit⟩ := hopens
    have hconditionals' : callsFor .conditional (a :: calls) = callsFor .conditional calls + 1 := by
      simp [callsFor_cons, ha]
    have hdefinitions' : callsFor .definition (a :: calls) = callsFor .definition calls := by
      simp [callsFor_cons, ha]
    refine ⟨?_, hlimit, ?_, ?_⟩
    · rw [hconditionals', hconditionals, hnesting]
    · rwa [hdefinitions', hdefining]
    · omega

/-- Wherever a compilation stands, its state counts the calls that have not ended. -/
theorem Active.counts {a : Activation} {outer : List Activation} (h : Active stops d a outer)
    (hd : d.nesting = 0) : a.state.Counts (a :: outer) := by
  induction h with
  | outermost => exact ⟨hd.symm, hd.symm ▸ Nat.zero_le _, Nat.zero_le _, rfl⟩
  | round _ hround ih => exact ih.round (round_eq_ok steady_loop hround).1
  | call _ henters ih => exact ih.call rfl (henters.opens steady_loop).2

-- ---------------------------------------------------------------------------
-- Compilations
-- ---------------------------------------------------------------------------

/-- The compilation in front of `d` comes to an end. -/
structure Terminates (d : Descent) (stops : List String) : Prop where
  /-- Finitely many rounds and calls lead to just one result. -/
  result : ∃ r, compile stops d = listed r ∧ ∀ r', Evaluates stops #[] d r' ↔ r' = r
  /-- A round that goes on leaves less to read. -/
  more : ∀ a outer, Active stops d a outer → ∀ ops' d',
    round (loop · #[]) a.stops a.ops a.state = .ok (.more ops') d' →
      d'.remaining < a.state.remaining
  /-- A round that ends its call leaves no more to read, although it may put a token back. -/
  done : ∀ a outer, Active stops d a outer → ∀ ops' d',
    round (loop · #[]) a.stops a.ops a.state = .ok (.done ops') d' →
      d'.remaining ≤ a.state.remaining
  /-- A call starts with less to read than the round that makes it. -/
  call : ∀ a outer, Active stops d a outer → ∀ purpose stops' d',
    Enters (loop · #[]) a.stops a.state purpose stops' d' → d'.remaining < a.state.remaining
  /-- The calls that have not ended are the outermost one, at most one for a definition, and
      not more for conditionals than may be nested. -/
  depth : ∀ a outer, Active stops d a outer →
    callsFor .conditional (a :: outer) ≤ nestingLimit ∧ callsFor .definition (a :: outer) ≤ 1 ∧
      (a :: outer).length =
        callsFor .conditional (a :: outer) + callsFor .definition (a :: outer) + 1

/-- Whatever calls a compiler has gone through, and whichever of them failed, its next call
    comes to an end, for all stop words. -/
theorem terminates_afterCalls (path source : String) (calls : List (List String))
    (stops : List String) : ((ofSource path source).afterCalls calls).Terminates stops := by
  have hidle := (idle_ofSource path source).afterCalls calls
  generalize (ofSource path source).afterCalls calls = d at hidle ⊢
  refine ⟨⟨loop stops #[] d, compile_eq_listed stops d, fun r' => ?_⟩, ?_, ?_, ?_, ?_⟩
  · exact ⟨Evaluates.eq_loop, fun h => h ▸ evaluates_loop stops #[] d⟩
  · exact fun a outer _ ops' d' hround => (round_eq_ok steady_loop hround).2 ops' rfl
  · exact fun a outer _ ops' d' hround => (round_eq_ok steady_loop hround).1.remaining
  · exact fun a outer _ purpose stops' d' henters => (henters.opens steady_loop).1
  · intro a outer hactive
    have hcounts := hactive.counts hidle.nesting
    exact ⟨hcounts.conditionals ▸ hcounts.nesting_le,
      Nat.le_trans hcounts.definitions (Bool.toNat_le _), hcounts.length⟩

end Forth.Descent
