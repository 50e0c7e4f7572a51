-- SUMMARY: The start of a text: the constructs that are open behind its first lexemes, and what closes them.
import Forth.Proofs.Splitting
import Forth.Proofs.Tokenizing

/-!
# Open constructs

The first lexemes of a text need not spell a phrase, because a definition or a
conditional may be open behind them. `Leads` says which constructs are open and
which phrase stands in the innermost one, by the grammar and within its limits, and
without reference to how the lexemes are read. Lexemes that lead somewhere have no
fault in them. A further statement prolongs the phrase, and a keyword that the
innermost construct waits for makes the construct a statement of the one around it.
-/

namespace Forth

-- ---------------------------------------------------------------------------
-- Phrases that go on
-- ---------------------------------------------------------------------------

namespace Phrase

/-- Whether the last statement is a call. If there is no statement, `before` tells. -/
def endsInCall : Phrase → Bool → Bool
  | done, before => before
  | call _ rest, _ => rest.endsInCall true
  | simple _ rest, _ | ifThen _ rest, _ | ifThenElse _ _ rest, _ | definition _ _ _ rest, _ =>
    rest.endsInCall false

@[simp] theorem endsInCall_append (p q : Phrase) (before : Bool) :
    (p.append q).endsInCall before = q.endsInCall (p.endsInCall before) := by
  induction p generalizing before with
  | done => rfl
  | simple s rest ih => exact ih false
  | call name rest ih => exact ih true
  | ifThen yes rest _ ihrest => exact ihrest false
  | ifThenElse yes no rest _ _ ihrest => exact ihrest false
  | definition l name body rest _ ihrest => exact ihrest false

end Phrase

/-- Two phrases are spelled one behind the other, unless the second one makes the last call of
    the first one a variable. -/
theorem Derives.concat {inside before : Bool} {us vs : List Token} {p q : Phrase}
    (hp : Derives inside us p) (hq : Derives inside vs q)
    (hlast : p.endsInCall before = true → variableFollows vs = false) :
    Derives inside (us ++ vs) (p.append q) := by
  induction hp generalizing before with
  | done => exact hq
  | literal hv _ ih => exact .literal hv (ih hq hlast)
  | primitive ht hp _ ih => exact .primitive ht hp (ih hq hlast)
  | store ht hp hmark _ ih => exact .store ht hp hmark (ih hq hlast)
  | fetch ht hp hmark _ ih => exact .fetch ht hp hmark (ih hq hlast)
  | @call _ _ _ ts _ ht hp hvar hrest ih =>
    refine .call ht hp ?_ (ih hq hlast)
    cases ts with
    | cons u us => exact hvar
    | nil =>
      cases hrest
      exact hlast rfl
  | ifThen hopening hyes hclosing _ _ ihrest =>
    have hrest := Derives.ifThen hopening hyes hclosing (ihrest hq hlast)
    simpa [Phrase.append] using hrest
  | ifThenElse hopening hyes hmiddle hno hclosing _ _ _ ihrest =>
    have hrest := Derives.ifThenElse hopening hyes hmiddle hno hclosing (ihrest hq hlast)
    simpa [Phrase.append] using hrest
  | definition hopening htitle hbody hclosing _ _ ihrest =>
    have hrest := Derives.definition hopening htitle hbody hclosing (ihrest hq hlast)
    simpa [Phrase.append] using hrest

theorem Derives.fits_op {inside : Bool} {ts : List Token} {s : Simple} {rest : Phrase}
    (h : Derives inside ts (.simple s rest)) : s.op.Fits := by
  cases h with
  | primitive _ hp _ => exact Work.fits_of_find? hp
  | literal | store | fetch => simp [Op.Fits, Simple.op, Op.push, Op.store, Op.fetch]

theorem Lexeme.keyword_token_iff {x : Lexeme} {k : Keyword} :
    x.token.payload = .keyword k ↔ x.text = k.text := by
  constructor
  · intro h
    cases Token.ofText_eq_iff_denotes.1 h with
    | keyword _ _ hk => exact hk.symm
  · intro h
    have hk : Token.Payload.ofText k.text = .keyword k := by cases k <;> decide +kernel
    rw [token, h, hk]

-- ---------------------------------------------------------------------------
-- Constructs
-- ---------------------------------------------------------------------------

/-- A construct that is not closed: the lexeme that opens it, the phrase in front of it,
    and what is known of it. -/
inductive Construct where
  | definition (opening : Lexeme) (outer : Phrase) (name : String)
  | branch (opening : Lexeme) (outer : Phrase)
  | alternative (opening : Lexeme) (outer yes : Phrase)

namespace Construct

/-- The colon of a definition, or the `if` of a conditional. -/
def opening : Construct → Lexeme
  | definition x _ _ | branch x _ | alternative x _ _ => x

def isConditional : Construct → Bool
  | definition .. => false
  | branch .. | alternative .. => true

/-- The keywords that close a construct or go on to its next part. -/
def closers : Construct → List Keyword
  | definition .. => [.semicolon]
  | branch .. => [.else_, .then_]
  | alternative .. => [.then_]

/-- The keywords that the innermost of some constructs waits for. -/
def innerClosers : List Construct → List Keyword
  | [] => []
  | c :: _ => c.closers

/-- How many of some constructs are conditionals. -/
def nesting (cs : List Construct) : Nat :=
  cs.countP isConditional

def anyDefinition (cs : List Construct) : Bool :=
  cs.any (!·.isConditional)

section

variable (x : Lexeme) (outer yes : Phrase) (name : String) (cs : List Construct)

@[simp] theorem nesting_definition : nesting (definition x outer name :: cs) = nesting cs :=
  List.countP_cons_of_neg Bool.false_ne_true

@[simp] theorem nesting_branch : nesting (branch x outer :: cs) = nesting cs + 1 :=
  List.countP_cons_of_pos rfl

@[simp] theorem nesting_alternative : nesting (alternative x outer yes :: cs) = nesting cs + 1 :=
  List.countP_cons_of_pos rfl

@[simp] theorem anyDefinition_definition :
    anyDefinition (definition x outer name :: cs) = true := rfl

@[simp] theorem anyDefinition_branch :
    anyDefinition (branch x outer :: cs) = anyDefinition cs := rfl

@[simp] theorem anyDefinition_alternative :
    anyDefinition (alternative x outer yes :: cs) = anyDefinition cs := rfl

end

end Construct

open Construct (nesting anyDefinition innerClosers)

/-- The lexemes spell the phrase `p` inside of the constructs `cs`, within the limits on
    nesting and on jumps. -/
structure SpelledIn (cs : List Construct) (xs : List Lexeme) (p : Phrase) : Prop where
  derives : Derives (anyDefinition cs) (xs.map Lexeme.token) p
  depth : nesting cs + p.depth ≤ nestingLimit
  fits : p.Fits

/-- The lexemes lead into the constructs `cs`, innermost first, which are open behind them.
    What stands in the innermost one is the phrase `p`. -/
inductive Leads : List Lexeme → List Construct → Phrase → Prop where
  | outside {xs : List Lexeme} {p : Phrase} : SpelledIn [] xs p → Leads xs [] p
  | definition {xs ys : List Lexeme} {x title : Lexeme} {cs : List Construct}
      {outer p : Phrase} {name : String} :
      Leads xs cs outer → anyDefinition cs = false → x.text = ":" →
      title.token.payload = .identifier name → SpelledIn (.definition x outer name :: cs) ys p →
      Leads (xs ++ x :: title :: ys) (.definition x outer name :: cs) p
  | branch {xs ys : List Lexeme} {x : Lexeme} {cs : List Construct} {outer p : Phrase} :
      Leads xs cs outer → x.text = "if" → SpelledIn (.branch x outer :: cs) ys p →
      Leads (xs ++ x :: ys) (.branch x outer :: cs) p
  | alternative {xs ys zs : List Lexeme} {x y : Lexeme} {cs : List Construct}
      {outer yes p : Phrase} :
      Leads xs cs outer → x.text = "if" → SpelledIn (.branch x outer :: cs) ys yes →
      y.text = "else" → SpelledIn (.alternative x outer yes :: cs) zs p →
      Leads (xs ++ x :: (ys ++ y :: zs)) (.alternative x outer yes :: cs) p

variable {cs : List Construct} {xs ys : List Lexeme} {x y : Lexeme} {p q outer yes : Phrase}
  {name : String}

theorem SpelledIn.done (h : nesting cs ≤ nestingLimit) : SpelledIn cs [] .done :=
  ⟨.done, h, Phrase.fits_done⟩

theorem SpelledIn.simple {s : Simple} (hcs : nesting cs ≤ nestingLimit)
    (h : Derives (anyDefinition cs) (xs.map Lexeme.token) (.simple s .done)) :
    SpelledIn cs xs (.simple s .done) :=
  ⟨h, hcs, (Phrase.fits_simple _ _).2 ⟨h.fits_op, Phrase.fits_done⟩⟩

/-- Two phrases in a construct are spelled one after the other, unless the second starts
    with a mark that would make the last name a variable. -/
theorem SpelledIn.append (hp : SpelledIn cs xs p) (hq : SpelledIn cs ys q)
    (hlast : p.endsInCall false = true → variableFollows (ys.map Lexeme.token) = false) :
    SpelledIn cs (xs ++ ys) (p.append q) where
  derives := by
    rw [List.map_append]
    exact hp.derives.concat hq.derives hlast
  depth := by
    rw [Phrase.depth_append]
    have := hp.depth
    have := hq.depth
    omega
  fits := hp.fits.append hq.fits

namespace Leads

/-- Constructs that lexemes lead into are within the limit. -/
theorem nesting_le (h : Leads xs cs p) : nesting cs ≤ nestingLimit := by
  cases h with
  | outside => exact Nat.zero_le _
  | definition _ _ _ _ hp | branch _ _ hp | alternative _ _ _ _ hp =>
    exact Nat.le_trans (Nat.le_add_right _ _) hp.depth

/-- An open construct was opened by one of the lexemes. -/
theorem opening_mem {c : Construct} (h : Leads xs (c :: cs) p) : c.opening ∈ xs := by
  cases h <;> simp [Construct.opening]

/-- A further phrase prolongs what stands in the innermost construct. -/
theorem append (h : Leads xs cs p) (hq : SpelledIn cs ys q)
    (hlast : p.endsInCall false = true → variableFollows (ys.map Lexeme.token) = false) :
    Leads (xs ++ ys) cs (p.append q) := by
  cases h with
  | outside hp => exact .outside (hp.append hq hlast)
  | definition houter hcs hx htitle hp =>
    have hlonger := houter.definition hcs hx htitle (hp.append hq hlast)
    simpa using hlonger
  | branch houter hx hp =>
    have hlonger := houter.branch hx (hp.append hq hlast)
    simpa using hlonger
  | alternative houter hx hyes hy hp =>
    have hlonger := houter.alternative hx hyes hy (hp.append hq hlast)
    simpa using hlonger

-- A keyword behind the phrase in front of a construct makes no variable of its last call.
/-- A phrase that starts with a keyword can follow any phrase. -/
theorem append_keyword {k : Keyword} (h : Leads xs cs p) (hx : x.text = k.text)
    (hq : SpelledIn cs (x :: ys) q) : Leads (xs ++ x :: ys) cs (p.append q) :=
  h.append hq fun _ => variableFollows_of_keyword (Lexeme.keyword_token_iff.2 hx)

/-- A colon and a name lead into a definition, outside of all definitions. -/
theorem open_definition {title : Lexeme} (h : Leads xs cs p) (hcs : anyDefinition cs = false)
    (hx : x.text = ":") (htitle : title.token.payload = .identifier name) :
    Leads (xs ++ [x, title]) (.definition x p name :: cs) .done :=
  h.definition hcs hx htitle (.done h.nesting_le)

/-- An `if` leads into a conditional, within the limit. -/
theorem open_branch (h : Leads xs cs p) (hx : x.text = "if") (hcs : nesting cs < nestingLimit) :
    Leads (xs ++ [x]) (.branch x p :: cs) .done :=
  h.branch hx (.done (Construct.nesting_branch x p cs ▸ hcs))

/-- A semicolon leads out of a definition, which becomes a statement of the phrase
    around it. -/
theorem close_definition (h : Leads xs (.definition x outer name :: cs) p) (hy : y.text = ";") :
    anyDefinition cs = false ∧
      Leads (xs ++ [y]) cs (outer.append (.definition x.location name p .done)) := by
  cases h with
  | @definition xs ys _ title _ _ _ _ houter hcs hx htitle hp =>
    have hwhole :
        SpelledIn cs (x :: title :: (ys ++ [y])) (.definition x.location name p .done) := by
      refine ⟨?_, ?_, (Phrase.fits_definition _ _ _ _).2 ⟨hp.fits.1, Phrase.fits_done⟩⟩
      · rw [hcs]
        have hderives := Derives.definition (Lexeme.keyword_token_iff (k := .colon).2 hx) htitle
          hp.derives (Lexeme.keyword_token_iff (k := .semicolon).2 hy) .done
        simpa [Lexeme.token] using hderives
      · simpa [Phrase.depth] using hp.depth
    refine ⟨hcs, ?_⟩
    simpa using houter.append_keyword (k := .colon) hx hwhole

/-- An `else` leads on to the second part of a conditional. -/
theorem go_on (h : Leads xs (.branch x outer :: cs) p) (hy : y.text = "else") :
    Leads (xs ++ [y]) (.alternative x outer p :: cs) .done := by
  have hle : nesting (.alternative x outer p :: cs) ≤ nestingLimit := h.nesting_le
  cases h with
  | branch houter hx hp => simpa using houter.alternative hx hp hy (.done hle)

/-- A `then` leads out of a conditional without an `else`, if its part is short enough. -/
theorem close_branch (h : Leads xs (.branch x outer :: cs) p) (hy : y.text = "then")
    (hfit : p.code.length + 1 ≤ distanceLimit) :
    Leads (xs ++ [y]) cs (outer.append (.ifThen p .done)) := by
  cases h with
  | @branch xs ys _ _ _ _ houter hx hp =>
    have hwhole : SpelledIn cs (x :: (ys ++ [y])) (.ifThen p .done) := by
      refine ⟨?_, ?_, (Phrase.fits_ifThen _ _).2 ⟨hfit, hp.fits, Phrase.fits_done⟩⟩
      · have hderives := Derives.ifThen (Lexeme.keyword_token_iff (k := .if_).2 hx) hp.derives
          (Lexeme.keyword_token_iff (k := .then_).2 hy) .done
        simpa using hderives
      · have hdepth := hp.depth
        simp only [Construct.nesting_branch, Phrase.depth] at hdepth ⊢
        omega
    simpa using houter.append_keyword (k := .if_) hx hwhole

/-- A `then` leads out of a conditional with an `else`, if both parts are short enough. -/
theorem close_alternative (h : Leads xs (.alternative x outer yes :: cs) p) (hy : y.text = "then")
    (hfit : yes.code.length + 2 ≤ distanceLimit ∧ p.code.length + 1 ≤ distanceLimit) :
    Leads (xs ++ [y]) cs (outer.append (.ifThenElse yes p .done)) := by
  cases h with
  | @alternative xs ys zs _ middle _ _ _ _ houter hx hyes hmiddle hp =>
    have hwhole : SpelledIn cs (x :: (ys ++ middle :: (zs ++ [y]))) (.ifThenElse yes p .done) := by
      refine ⟨?_, ?_, ?_⟩
      · have hderives := Derives.ifThenElse (Lexeme.keyword_token_iff (k := .if_).2 hx) hyes.derives
          (Lexeme.keyword_token_iff (k := .else_).2 hmiddle) hp.derives
          (Lexeme.keyword_token_iff (k := .then_).2 hy) .done
        simpa using hderives
      · have hdepth := hp.depth
        have hdepth' := hyes.depth
        simp only [Construct.nesting_branch, Construct.nesting_alternative, Phrase.depth]
          at hdepth hdepth' ⊢
        omega
      · exact (Phrase.fits_ifThenElse _ _ _).2 ⟨hfit, hyes.fits, hp.fits, Phrase.fits_done⟩
    simpa using houter.append_keyword (k := .if_) hx hwhole

end Leads

end Forth
