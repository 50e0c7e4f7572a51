-- SUMMARY: The grammar of programs: phrases, the tokens that spell them, and the code they stand for.
import Forth.Compiler.Work
import Forth.Proofs.Tokens
import Mathlib.Tactic.Tauto

/-!
# The grammar of programs

A phrase is a sequence of statements, given by its first statement and the rest.
Conditionals contain phrases, and so do definitions. `Derives` says which tokens
spell a phrase, without reference to how they are read. The code of a phrase is
defined by recursion on it; a definition adds no code where it stands.
-/

namespace Forth

-- ---------------------------------------------------------------------------
-- Phrases
-- ---------------------------------------------------------------------------

/-- A statement that is one action on the state. -/
inductive Simple where
  | push (v : Value)
  | primitive (p : Primitive)
  | store (name : String)
  | fetch (name : String)
  deriving DecidableEq

/-- A sequence of statements. A definition keeps the place of its colon. -/
inductive Phrase where
  | done
  | simple (s : Simple) (rest : Phrase)
  | call (name : String) (rest : Phrase)
  | ifThen (yes rest : Phrase)
  | ifThenElse (yes no rest : Phrase)
  | definition (location : Location) (name : String) (body rest : Phrase)
  deriving DecidableEq

/-- A definition: where it starts, the name that it gives, and what the name
    stands for. -/
structure Definition where
  location : Location
  name : String
  body : Phrase
  deriving DecidableEq

/-- The definitions in a phrase, also those inside of conditionals, in order. -/
def Phrase.definitions : Phrase → List Definition
  | done => []
  | simple _ rest => rest.definitions
  | call _ rest => rest.definitions
  | ifThen yes rest => yes.definitions ++ rest.definitions
  | ifThenElse yes no rest => yes.definitions ++ no.definitions ++ rest.definitions
  | definition l name body rest => ⟨l, name, body⟩ :: rest.definitions

/-- How many conditionals there are around the innermost place of a phrase. The
    body of a definition also stands in the conditionals around the definition. -/
def Phrase.depth : Phrase → Nat
  | done => 0
  | simple _ rest => rest.depth
  | call _ rest => rest.depth
  | ifThen yes rest => max (yes.depth + 1) rest.depth
  | ifThenElse yes no rest => max (max (yes.depth + 1) (no.depth + 1)) rest.depth
  | definition _ _ body rest => max body.depth rest.depth

-- ---------------------------------------------------------------------------
-- Code
-- ---------------------------------------------------------------------------

def Simple.op : Simple → Op
  | push v => .push v
  | primitive p => { opcode := p.opcode, arg := p.argument }
  | store name => .store name
  | fetch name => .fetch name

/-- The code of a phrase. A conditional jumps over the part that is not to run. -/
def Phrase.code : Phrase → List Op
  | done => []
  | simple s rest => s.op :: rest.code
  | call name rest => .call name :: rest.code
  | ifThen yes rest => .jumpIfNot (yes.code.length + 1) :: (yes.code ++ rest.code)
  | ifThenElse yes no rest =>
    .jumpIfNot (yes.code.length + 2) ::
      (yes.code ++ .jump (no.code.length + 1) :: (no.code ++ rest.code))
  | definition _ _ _ rest => rest.code

def Definition.word (d : Definition) : Word :=
  .ofBody d.name d.location d.body.code

/-- A jump has a distance that fits in 32 bits. -/
def Op.Fits (o : Op) : Prop :=
  o.opcode = .jump ∨ o.opcode = .jumpIfNot → o.arg ≤ distanceLimit

@[simp] theorem Op.fits_ret : Op.ret.Fits := by
  simp [Fits, ret]

@[simp] theorem Op.fits_call (name : String) : (Op.call name).Fits := by
  simp [Fits, call]

@[simp] theorem Op.fits_jump (distance : Nat) :
    (Op.jump distance).Fits ↔ distance ≤ distanceLimit := by
  simp [Fits, jump]

@[simp] theorem Op.fits_jumpIfNot (distance : Nat) :
    (Op.jumpIfNot distance).Fits ↔ distance ≤ distanceLimit := by
  simp [Fits, jumpIfNot]

namespace Phrase

def definedWords (p : Phrase) : List Word :=
  p.definitions.map Definition.word

/-- The words of a text that starts at `start`: its definitions, and then the code
    outside of them. -/
def words (p : Phrase) (start : Location) : List Word :=
  p.definedWords ++ [.ofBody Word.topLevel start p.code]

/-- No jump in the code of a phrase and of its definitions is too long. -/
def Fits (p : Phrase) : Prop :=
  (∀ op ∈ p.code, op.Fits) ∧ ∀ w ∈ p.definedWords, ∀ op ∈ w.ops, op.Fits

/-- A phrase fits if the ops of all its words do. -/
theorem fits_iff_words (p : Phrase) (start : Location) :
    p.Fits ↔ ∀ w ∈ p.words start, ∀ op ∈ w.ops, op.Fits := by
  simp only [Fits, words, List.mem_append, List.mem_singleton, or_imp, forall_and, forall_eq,
    Word.ofBody_ops, Op.fits_ret, and_true]
  tauto

@[simp] theorem fits_done : done.Fits := by
  simp [Fits, code, definedWords, definitions]

@[simp] theorem fits_simple (s : Simple) (rest : Phrase) :
    (simple s rest).Fits ↔ s.op.Fits ∧ rest.Fits := by
  simp [Fits, code, definedWords, definitions, and_assoc]

@[simp] theorem fits_call (name : String) (rest : Phrase) :
    (call name rest).Fits ↔ rest.Fits := by
  simp [Fits, code, definedWords, definitions]

/-- The jump over the part of a conditional has to be short enough, and so have the
    jumps inside of it. -/
@[simp] theorem fits_ifThen (yes rest : Phrase) :
    (ifThen yes rest).Fits ↔
      yes.code.length + 1 ≤ distanceLimit ∧ yes.Fits ∧ rest.Fits := by
  simp only [Fits, code, definedWords, definitions, List.mem_cons, List.mem_append, List.map_append,
    or_imp, forall_and, forall_eq, Op.fits_jumpIfNot]
  tauto

/-- Both jumps of a conditional have to be short enough: the one to the `else` part, and
    the one over it. -/
@[simp] theorem fits_ifThenElse (yes no rest : Phrase) :
    (ifThenElse yes no rest).Fits ↔
      (yes.code.length + 2 ≤ distanceLimit ∧ no.code.length + 1 ≤ distanceLimit) ∧
        yes.Fits ∧ no.Fits ∧ rest.Fits := by
  simp only [Fits, code, definedWords, definitions, List.mem_cons, List.mem_append, List.map_append,
    or_imp, forall_and, forall_eq, Op.fits_jump, Op.fits_jumpIfNot]
  tauto

@[simp] theorem fits_definition (l : Location) (name : String) (body rest : Phrase) :
    (definition l name body rest).Fits ↔ (∀ op ∈ body.code, op.Fits) ∧ rest.Fits := by
  simp only [Fits, code, definedWords, definitions, Definition.word, List.map_cons, List.mem_cons,
    or_imp, forall_and, forall_eq, Word.ofBody_ops, List.mem_append, List.not_mem_nil, or_false,
    Op.fits_ret, and_true]
  tauto

end Phrase

-- ---------------------------------------------------------------------------
-- Spelling
-- ---------------------------------------------------------------------------

/-- The value that a token denotes as a literal. -/
def Token.value? (t : Token) : Option Value :=
  match t.payload with
  | .integer n => some (.int n)
  | .string s => some (.str s)
  | _ => none

/-- Whether the name in front of these tokens is the name of a variable: the next
    of them is `!` or `@`. -/
def variableFollows : List Token → Bool
  | [] => false
  | t :: _ => t.isIdentifier "!" || t.isIdentifier "@"

theorem variableFollows_append {us vs : List Token} (hu : variableFollows us = false)
    (hv : variableFollows vs = false) : variableFollows (us ++ vs) = false := by
  cases us with
  | nil => exact hv
  | cons u us => exact hu

theorem variableFollows_of_keyword {t : Token} {ts : List Token} {k : Keyword}
    (h : t.payload = .keyword k) : variableFollows (t :: ts) = false := by
  simp [variableFollows, Token.isIdentifier, h]

/-- The tokens that spell a phrase. A definition may not stand `inside` another
    one. A name is a variable whenever it can be one. -/
inductive Derives : Bool → List Token → Phrase → Prop where
  | done {inside : Bool} : Derives inside [] .done
  | literal {inside : Bool} {t : Token} {v : Value} {ts : List Token} {rest : Phrase} :
      t.value? = some v → Derives inside ts rest →
      Derives inside (t :: ts) (.simple (.push v) rest)
  | primitive {inside : Bool} {t : Token} {name : String} {p : Primitive} {ts : List Token}
      {rest : Phrase} :
      t.payload = .identifier name → Primitive.find? name = some p → Derives inside ts rest →
      Derives inside (t :: ts) (.simple (.primitive p) rest)
  | store {inside : Bool} {t mark : Token} {name : String} {ts : List Token} {rest : Phrase} :
      t.payload = .identifier name → Primitive.find? name = none →
      mark.payload = .identifier "!" → Derives inside ts rest →
      Derives inside (t :: mark :: ts) (.simple (.store name) rest)
  | fetch {inside : Bool} {t mark : Token} {name : String} {ts : List Token} {rest : Phrase} :
      t.payload = .identifier name → Primitive.find? name = none →
      mark.payload = .identifier "@" → Derives inside ts rest →
      Derives inside (t :: mark :: ts) (.simple (.fetch name) rest)
  | call {inside : Bool} {t : Token} {name : String} {ts : List Token} {rest : Phrase} :
      t.payload = .identifier name → Primitive.find? name = none →
      variableFollows ts = false → Derives inside ts rest →
      Derives inside (t :: ts) (.call name rest)
  | ifThen {inside : Bool} {opening closing : Token} {us ts : List Token} {yes rest : Phrase} :
      opening.payload = .keyword .if_ → Derives inside us yes →
      closing.payload = .keyword .then_ → Derives inside ts rest →
      Derives inside (opening :: (us ++ closing :: ts)) (.ifThen yes rest)
  | ifThenElse {inside : Bool} {opening middle closing : Token} {us vs ts : List Token}
      {yes no rest : Phrase} :
      opening.payload = .keyword .if_ → Derives inside us yes →
      middle.payload = .keyword .else_ → Derives inside vs no →
      closing.payload = .keyword .then_ → Derives inside ts rest →
      Derives inside (opening :: (us ++ middle :: (vs ++ closing :: ts)))
        (.ifThenElse yes no rest)
  | definition {opening title closing : Token} {name : String} {us ts : List Token}
      {body rest : Phrase} :
      opening.payload = .keyword .colon → title.payload = .identifier name →
      Derives true us body → closing.payload = .keyword .semicolon → Derives false ts rest →
      Derives false (opening :: title :: (us ++ closing :: ts))
        (.definition opening.location name body rest)

/-- There are no definitions inside of a definition. -/
theorem Derives.definitions_of_inside {ts : List Token} {p : Phrase} (h : Derives true ts p) :
    p.definitions = [] := by
  generalize hi : true = inside at h
  induction h with
  | done => rfl
  | literal _ _ ih | primitive _ _ _ ih | store _ _ _ _ ih | fetch _ _ _ _ ih | call _ _ _ _ ih =>
    exact ih hi
  | ifThen _ _ _ _ ihyes ihrest =>
    simp [Phrase.definitions, ihyes hi, ihrest hi]
  | ifThenElse _ _ _ _ _ _ ihyes ihno ihrest =>
    simp [Phrase.definitions, ihyes hi, ihno hi, ihrest hi]
  | definition => cases hi

/-- What is spelled by tokens of a part is spelled by tokens of the whole. -/
theorem Derives.exists_of_subset {ts ts' : List Token} {body : Phrase} (hsub : ∀ t ∈ ts, t ∈ ts')
    (h : ∃ us, us ⊆ ts ∧ Derives true us body) : ∃ us, us ⊆ ts' ∧ Derives true us body := by
  obtain ⟨us, hus, hbody⟩ := h
  exact ⟨us, fun t ht => hsub t (hus ht), hbody⟩

/-- The body of a definition is spelled by tokens inside of the text. -/
theorem Derives.exists_of_mem_definitions {inside : Bool} {ts : List Token} {p : Phrase}
    {d : Definition} (h : Derives inside ts p) (hd : d ∈ p.definitions) :
    ∃ us, us ⊆ ts ∧ Derives true us d.body := by
  induction h with
  | done => cases hd
  | literal _ _ ih | primitive _ _ _ ih | store _ _ _ _ ih | fetch _ _ _ _ ih | call _ _ _ _ ih =>
    exact exists_of_subset (by simp +contextual) (ih hd)
  | ifThen _ _ _ _ ihyes ihrest =>
    rcases List.mem_append.1 hd with hd | hd
    · exact exists_of_subset (by simp +contextual) (ihyes hd)
    · exact exists_of_subset (by simp +contextual) (ihrest hd)
  | ifThenElse _ _ _ _ _ _ ihyes ihno ihrest =>
    rcases List.mem_append.1 hd with hd | hd
    · rcases List.mem_append.1 hd with hd | hd
      · exact exists_of_subset (by simp +contextual) (ihyes hd)
      · exact exists_of_subset (by simp +contextual) (ihno hd)
    · exact exists_of_subset (by simp +contextual) (ihrest hd)
  | @definition opening title closing name us ts body rest _ _ hbody _ _ _ ihrest =>
    rcases List.mem_cons.1 hd with rfl | hd
    · exact ⟨us, fun t ht => by simp [ht], hbody⟩
    · exact exists_of_subset (by simp +contextual) (ihrest hd)

/-- The definition starts among the tokens: with its colon, and then its name. -/
def Definition.OpensIn (d : Definition) (ts : List Token) : Prop :=
  ∃ opening title, [opening, title] <:+: ts ∧ opening.payload = .keyword .colon ∧
    opening.location = d.location ∧ title.payload = .identifier d.name

theorem Definition.OpensIn.mono {d : Definition} {us ts : List Token} (h : d.OpensIn us)
    (hpart : us <:+: ts) : d.OpensIn ts := by
  obtain ⟨opening, title, hopening, hrest⟩ := h
  exact ⟨opening, title, hopening.trans hpart, hrest⟩

/-- Every definition of a phrase starts among its tokens. -/
theorem Derives.opensIn_of_mem_definitions {inside : Bool} {ts : List Token} {p : Phrase}
    {d : Definition} (h : Derives inside ts p) (hd : d ∈ p.definitions) : d.OpensIn ts := by
  induction h with
  | done => cases hd
  | @literal _ t _ ts _ _ _ ih | @primitive _ t _ _ ts _ _ _ _ ih | @call _ t _ ts _ _ _ _ _ ih =>
    exact (ih hd).mono (List.suffix_cons t ts).isInfix
  | @store _ t mark _ ts _ _ _ _ _ ih | @fetch _ t mark _ ts _ _ _ _ _ ih =>
    exact (ih hd).mono (List.suffix_append [t, mark] ts).isInfix
  | @ifThen _ opening closing us ts _ _ _ _ _ _ ihyes ihrest =>
    rcases List.mem_append.1 hd with hd | hd
    · exact (ihyes hd).mono ⟨[opening], closing :: ts, rfl⟩
    · exact (ihrest hd).mono ⟨opening :: (us ++ [closing]), [], by simp⟩
  | @ifThenElse _ opening middle closing us vs ts _ _ _ _ _ _ _ _ _ ihyes ihno ihrest =>
    rcases List.mem_append.1 hd with hd | hd
    · rcases List.mem_append.1 hd with hd | hd
      · exact (ihyes hd).mono ⟨[opening], middle :: (vs ++ closing :: ts), rfl⟩
      · exact (ihno hd).mono ⟨opening :: (us ++ [middle]), closing :: ts, by simp⟩
    · exact (ihrest hd).mono ⟨opening :: (us ++ middle :: (vs ++ [closing])), [], by simp⟩
  | @definition opening title closing _ us ts _ _ hopening htitle _ _ _ _ ihrest =>
    rcases List.mem_cons.1 hd with rfl | hd
    · exact ⟨opening, title, ⟨[], us ++ closing :: ts, rfl⟩, hopening, rfl, htitle⟩
    · exact (ihrest hd).mono ⟨opening :: title :: (us ++ [closing]), [], by simp⟩

/-- The phrase that a source text spells: all its comments are closed, and its
    tokens spell the phrase. -/
def Spells (path source : String) (p : Phrase) : Prop :=
  CommentsClosed 0 (Cursor.ofSource path source).lexemes.1 ∧
    Derives false (tokensOf (Cursor.ofSource path source).lexemes.1) p

-- ---------------------------------------------------------------------------
-- Unambiguity
-- ---------------------------------------------------------------------------

/-- What the first tokens of a phrase tell about its first statement. -/
inductive Phrase.Form where
  | none
  | simple (s : Simple)
  | call (name : String)
  | conditional
  | definition

def Phrase.form : Phrase → Form
  | done => .none
  | simple s _ => .simple s
  | call name _ => .call name
  | ifThen _ _ | ifThenElse _ _ _ => .conditional
  | definition _ _ _ _ => .definition

/-- The form of the statement that starts with these tokens. -/
def formOf : List Token → Phrase.Form
  | [] => .none
  | t :: ts =>
    match t.payload with
    | .integer n => .simple (.push (.int n))
    | .string s => .simple (.push (.str s))
    | .keyword .if_ => .conditional
    | .keyword .colon => .definition
    | .identifier name =>
      match Primitive.find? name, ts with
      | some p, _ => .simple (.primitive p)
      | none, [] => .call name
      | none, mark :: _ =>
        if mark.isIdentifier "!" then .simple (.store name)
        else if mark.isIdentifier "@" then .simple (.fetch name)
        else .call name
    | _ => .none

/-- A keyword that closes a part of a phrase. -/
def Token.IsStop (t : Token) : Prop :=
  t.payload = .keyword .then_ ∨ t.payload = .keyword .else_ ∨ t.payload = .keyword .semicolon

theorem formOf_stop {x : Token} {ts : List Token} (hx : x.IsStop) : formOf (x :: ts) = .none := by
  rcases hx with hx | hx | hx <;> simp [formOf, hx]

theorem formOf_literal {t : Token} {v : Value} {ts : List Token} (hv : t.value? = some v) :
    formOf (t :: ts) = .simple (.push v) := by
  unfold Token.value? at hv
  split at hv <;> simp_all [formOf]

theorem variableFollows_stop {x : Token} {ts : List Token} (hx : x.IsStop) :
    variableFollows (x :: ts) = false := by
  rcases hx with hx | hx | hx <;> exact variableFollows_of_keyword hx

theorem formOf_call {t : Token} {name : String} {ts : List Token}
    (hname : t.payload = .identifier name) (hp : Primitive.find? name = none)
    (hfollows : variableFollows ts = false) : formOf (t :: ts) = .call name := by
  cases ts with
  | nil => simp [formOf, hname, hp]
  | cons u us =>
    simp only [variableFollows, Bool.or_eq_false_iff] at hfollows
    simp [formOf, hname, hp, hfollows]

namespace Derives

variable {inside : Bool} {us us' ts ts' : List Token} {p p' : Phrase} {x x' : Token}

/-- The tokens of a phrase, with a stop behind them, tell the form of its first
    statement. -/
theorem formOf_append (h : Derives inside us p) (hx : x.IsStop) :
    formOf (us ++ x :: ts) = p.form := by
  cases h with
  | done => exact formOf_stop hx
  | literal hv _ => exact formOf_literal hv
  | primitive hname hp _ => simp [formOf, hname, hp, Phrase.form]
  | store hname hp hmark _ => simp [formOf, hname, hp, Token.isIdentifier, hmark, Phrase.form]
  | fetch hname hp hmark _ => simp [formOf, hname, hp, Token.isIdentifier, hmark, Phrase.form]
  | call hname hp hfollows _ =>
    exact formOf_call hname hp (variableFollows_append hfollows (variableFollows_stop hx))
  | ifThen hopening _ _ _ => simp [formOf, hopening, Phrase.form]
  | ifThenElse hopening _ _ _ _ _ => simp [formOf, hopening, Phrase.form]
  | definition hopening _ _ _ _ => simp [formOf, hopening, Phrase.form]

/-- Two phrases that the same tokens spell, each up to a stop, start with the same form. -/
theorem form_eq (h : Derives inside us p) (h' : Derives inside us' p') (hx : x.IsStop)
    (hx' : x'.IsStop) (heq : us ++ x :: ts = us' ++ x' :: ts') : p.form = p'.form := by
  rw [← h.formOf_append hx, ← h'.formOf_append hx', heq]

/-- Tokens in front of a stop spell at most one phrase. -/
theorem unique_append (h : Derives inside us p) (h' : Derives inside us' p') (hx : x.IsStop)
    (hx' : x'.IsStop) (heq : us ++ x :: ts = us' ++ x' :: ts') : us = us' ∧ p = p' := by
  induction h generalizing us' p' x x' ts ts' with
  | done =>
    have hform := done.form_eq h' hx hx' heq
    cases h' with
    | done => exact ⟨rfl, rfl⟩
    | _ => cases hform
  | literal hv hrest ih =>
    have hform := (literal hv hrest).form_eq h' hx hx' heq
    cases h' with
    | literal _ hrest' =>
      cases hform
      obtain ⟨rfl, htail⟩ := List.cons.inj heq
      obtain ⟨rfl, rfl⟩ := ih hrest' hx hx' htail
      exact ⟨rfl, rfl⟩
    | _ => cases hform
  | primitive hname hp hrest ih =>
    have hform := (primitive hname hp hrest).form_eq h' hx hx' heq
    cases h' with
    | primitive _ _ hrest' =>
      cases hform
      obtain ⟨rfl, htail⟩ := List.cons.inj heq
      obtain ⟨rfl, rfl⟩ := ih hrest' hx hx' htail
      exact ⟨rfl, rfl⟩
    | _ => cases hform
  | store hname hp hmark hrest ih =>
    have hform := (store hname hp hmark hrest).form_eq h' hx hx' heq
    cases h' with
    | store _ _ _ hrest' =>
      cases hform
      obtain ⟨rfl, htail⟩ := List.cons.inj heq
      obtain ⟨rfl, hrestEq⟩ := List.cons.inj htail
      obtain ⟨rfl, rfl⟩ := ih hrest' hx hx' hrestEq
      exact ⟨rfl, rfl⟩
    | _ => cases hform
  | fetch hname hp hmark hrest ih =>
    have hform := (fetch hname hp hmark hrest).form_eq h' hx hx' heq
    cases h' with
    | fetch _ _ _ hrest' =>
      cases hform
      obtain ⟨rfl, htail⟩ := List.cons.inj heq
      obtain ⟨rfl, hrestEq⟩ := List.cons.inj htail
      obtain ⟨rfl, rfl⟩ := ih hrest' hx hx' hrestEq
      exact ⟨rfl, rfl⟩
    | _ => cases hform
  | call hname hp hfollows hrest ih =>
    have hform := (call hname hp hfollows hrest).form_eq h' hx hx' heq
    cases h' with
    | call _ _ _ hrest' =>
      cases hform
      obtain ⟨rfl, htail⟩ := List.cons.inj heq
      obtain ⟨rfl, rfl⟩ := ih hrest' hx hx' htail
      exact ⟨rfl, rfl⟩
    | _ => cases hform
  | ifThen hopening hyes hclosing hrest ihyes ihrest =>
    have hform := (ifThen hopening hyes hclosing hrest).form_eq h' hx hx' heq
    cases h' with
    | ifThen _ hyes' hclosing' hrest' =>
      simp only [List.cons_append, List.append_assoc, List.cons.injEq] at heq
      obtain ⟨rfl, hyesEq⟩ := heq
      obtain ⟨rfl, rfl⟩ := ihyes hyes' (.inl hclosing) (.inl hclosing') hyesEq
      obtain ⟨rfl, hrestEq⟩ := List.cons.inj (List.append_cancel_left hyesEq)
      obtain ⟨rfl, rfl⟩ := ihrest hrest' hx hx' hrestEq
      exact ⟨rfl, rfl⟩
    | ifThenElse _ hyes' hmiddle' _ _ _ =>
      -- the token behind the true part can not be both keywords
      simp only [List.cons_append, List.append_assoc, List.cons.injEq] at heq
      obtain ⟨rfl, hyesEq⟩ := heq
      obtain ⟨rfl, -⟩ := ihyes hyes' (.inl hclosing) (.inr (.inl hmiddle')) hyesEq
      obtain ⟨rfl, -⟩ := List.cons.inj (List.append_cancel_left hyesEq)
      cases hclosing.symm.trans hmiddle'
    | _ => cases hform
  | ifThenElse hopening hyes hmiddle hno hclosing hrest ihyes ihno ihrest =>
    have hform := (ifThenElse hopening hyes hmiddle hno hclosing hrest).form_eq h' hx hx' heq
    cases h' with
    | ifThen _ hyes' hclosing' hrest' =>
      simp only [List.cons_append, List.append_assoc, List.cons.injEq] at heq
      obtain ⟨rfl, hyesEq⟩ := heq
      obtain ⟨rfl, -⟩ := ihyes hyes' (.inr (.inl hmiddle)) (.inl hclosing') hyesEq
      obtain ⟨rfl, -⟩ := List.cons.inj (List.append_cancel_left hyesEq)
      cases hmiddle.symm.trans hclosing'
    | ifThenElse _ hyes' hmiddle' hno' hclosing' hrest' =>
      simp only [List.cons_append, List.append_assoc, List.cons.injEq] at heq
      obtain ⟨rfl, hyesEq⟩ := heq
      obtain ⟨rfl, rfl⟩ := ihyes hyes' (.inr (.inl hmiddle)) (.inr (.inl hmiddle')) hyesEq
      obtain ⟨rfl, hnoEq⟩ := List.cons.inj (List.append_cancel_left hyesEq)
      obtain ⟨rfl, rfl⟩ := ihno hno' (.inl hclosing) (.inl hclosing') hnoEq
      obtain ⟨rfl, hrestEq⟩ := List.cons.inj (List.append_cancel_left hnoEq)
      obtain ⟨rfl, rfl⟩ := ihrest hrest' hx hx' hrestEq
      exact ⟨rfl, rfl⟩
    | _ => cases hform
  | definition hopening htitle hbody hclosing hrest ihbody ihrest =>
    have hform := (definition hopening htitle hbody hclosing hrest).form_eq h' hx hx' heq
    cases h' with
    | definition _ htitle' hbody' hclosing' hrest' =>
      simp only [List.cons_append, List.append_assoc, List.cons.injEq] at heq
      obtain ⟨rfl, rfl, hbodyEq⟩ := heq
      obtain ⟨rfl, rfl⟩ := ihbody hbody' (.inr (.inr hclosing)) (.inr (.inr hclosing')) hbodyEq
      obtain ⟨rfl, hrestEq⟩ := List.cons.inj (List.append_cancel_left hbodyEq)
      obtain ⟨rfl, rfl⟩ := ihrest hrest' hx hx' hrestEq
      cases htitle.symm.trans htitle'
      exact ⟨rfl, rfl⟩
    | _ => cases hform

/-- Tokens spell at most one phrase. -/
theorem unique (h : Derives inside ts p) (h' : Derives inside ts p') : p = p' := by
  let stop : Token := ⟨.start "", .keyword .semicolon⟩
  have hstop : stop.IsStop := .inr (.inr rfl)
  have heq : ts ++ [stop] = ts ++ [stop] := rfl
  exact (h.unique_append h' hstop hstop heq).2

end Derives

/-- A source text spells at most one phrase. -/
theorem Spells.unique {path source : String} {p p' : Phrase} (h : Spells path source p)
    (h' : Spells path source p') : p = p' :=
  h.2.unique h'.2

end Forth
