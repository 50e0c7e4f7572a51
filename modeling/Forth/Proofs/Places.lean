-- SUMMARY: Places: texts with the same lexemes mean the same, wherever their lexemes stand.
import Forth.Proofs.Grammar
import Forth.Proofs.Linking

/-!
# Places

The lexemes of a text are its maximal runs of characters that are not blank, and
they decide what the text means. Blanks only decide about places, and a place is
kept in definitions alone. So two texts with the same lexemes spell phrases that are
equal up to the places of definitions, and have words that are equal up to places.
-/

namespace Forth

-- ---------------------------------------------------------------------------
-- Runs of characters
-- ---------------------------------------------------------------------------

namespace Text

/-- The maximal runs of characters that are not blank. -/
def runs (cs : List Char) : List String :=
  ((cs.splitOnP isBlank).filter (!·.isEmpty)).map String.ofList

/-- A blank separates the runs on both sides of it. -/
theorem runs_append {c : Char} (hc : isBlank c = true) (as bs : List Char) :
    runs (as ++ c :: bs) = runs as ++ runs bs := by
  simp [runs, List.splitOnP_append_cons _ _ hc]

theorem runs_dropWhile (cs : List Char) : runs (cs.dropWhile isBlank) = runs cs := by
  induction cs with
  | nil => rfl
  | cons c cs ih =>
    cases hc : isBlank c with
    | false => rw [List.dropWhile_cons_of_neg (by simp [hc])]
    | true =>
      rw [List.dropWhile_cons_of_pos hc, ih]
      exact (runs_append hc [] cs).symm

theorem runs_of_forall {w : List Char} (hw : ∀ c ∈ w, isBlank c = false) (hne : w ≠ []) :
    runs w = [String.ofList w] := by
  have hsplit : w.splitOnP isBlank = [w] := List.splitOnP_eq_singleton (by simpa using hw)
  simp [runs, hsplit, hne]

/-- The first run reaches up to the next blank. -/
theorem runs_of_takeWhile {cs : List Char} (hne : cs.takeWhile (!isBlank ·) ≠ []) :
    runs cs = String.ofList (cs.takeWhile (!isBlank ·)) :: runs (cs.dropWhile (!isBlank ·)) := by
  have hword : ∀ c ∈ cs.takeWhile (!isBlank ·), isBlank c = false := by
    intro c hc
    simpa using List.all_eq_true.1 List.all_takeWhile c hc
  have hsplit := List.takeWhile_append_dropWhile (p := (!isBlank ·)) (l := cs)
  have hhead := List.head?_dropWhile_not (!isBlank ·) cs
  generalize cs.takeWhile (!isBlank ·) = w at hne hword hsplit ⊢
  generalize cs.dropWhile (!isBlank ·) = rest at hsplit hhead ⊢
  subst hsplit
  cases rest with
  | nil => rw [List.append_nil, runs_of_forall hword hne]; rfl
  | cons b bs =>
    have hb : isBlank b = true := by simpa using hhead
    rw [runs_append hb, runs_of_forall hword hne]
    exact congrArg _ (runs_append hb [] bs).symm

end Text

namespace Cursor

variable {c c' : Cursor} {x : Lexeme}

theorem runs_of_lexeme_none (h : c.lexeme = (none, c')) : Text.runs c.rest = [] := by
  have hhead := List.head?_dropWhile_not Text.isBlank c.rest
  rw [← Text.runs_dropWhile]
  unfold lexeme skip at h
  cases hrest : c.rest.dropWhile Text.isBlank with
  | nil => rfl
  | cons y ys =>
    rw [hrest] at hhead
    simp_all

/-- A lexeme is the first run of the characters that are left. -/
theorem runs_of_lexeme_some (h : c.lexeme = (some x, c')) :
    Text.runs c.rest = x.text :: Text.runs c'.rest := by
  rw [← Text.runs_dropWhile]
  unfold lexeme skip at h
  dsimp only at h
  split at h
  · cases h
  · rename_i hne
    cases h
    exact Text.runs_of_takeWhile hne

/-- The lexemes of a text are its runs. -/
theorem text_lexemes (c : Cursor) : c.lexemes.1.map (·.text) = Text.runs c.rest := by
  fun_induction lexemes c with
  | case1 c c' h => exact (runs_of_lexeme_none h).symm
  | case2 c x c' h _ xs finish hxs ih =>
    rw [hxs] at ih
    rw [runs_of_lexeme_some h, ← ih]
    rfl

end Cursor

-- ---------------------------------------------------------------------------
-- Tokens
-- ---------------------------------------------------------------------------

section Tokens

variable {xs ys : List Lexeme} {depth : Nat}

theorem Lexeme.depthAfter_congr {x y : Lexeme} (h : x.text = y.text) (depth : Nat) :
    x.depthAfter depth = y.depthAfter depth := by
  rw [depthAfter, depthAfter, h]

/-- Which lexemes are outside of comments depends on their texts only. -/
theorem text_outsideComments_congr (h : xs.map (·.text) = ys.map (·.text)) (depth : Nat) :
    (outsideComments depth xs).map (·.text) = (outsideComments depth ys).map (·.text) := by
  induction xs generalizing ys depth with
  | nil =>
    obtain rfl := List.map_eq_nil_iff.1 h.symm
    rfl
  | cons x xs ih =>
    obtain ⟨y, ys, rfl, htext, htexts⟩ := List.map_eq_cons_iff.1 h.symm
    have hrest := ih htexts.symm (x.depthAfter depth)
    rw [outsideComments, outsideComments, htext, Lexeme.depthAfter_congr htext]
    split <;> simp [htext, hrest]

/-- Whether all comments are closed depends on the texts of the lexemes only. -/
theorem commentsClosed_congr (h : xs.map (·.text) = ys.map (·.text)) :
    CommentsClosed depth xs ↔ CommentsClosed depth ys := by
  induction xs generalizing ys depth with
  | nil =>
    obtain rfl := List.map_eq_nil_iff.1 h.symm
    rfl
  | cons x xs ih =>
    obtain ⟨y, ys, rfl, htext, htexts⟩ := List.map_eq_cons_iff.1 h.symm
    rw [CommentsClosed, CommentsClosed, List.foldl_cons, List.foldl_cons,
      Lexeme.depthAfter_congr htext]
    exact ih htexts.symm

/-- What tokens mean depends on the texts of the lexemes only. -/
theorem payload_tokensOf_congr (h : xs.map (·.text) = ys.map (·.text)) :
    (tokensOf xs).map (·.payload) = (tokensOf ys).map (·.payload) := by
  have htexts := congrArg (List.map Token.Payload.ofText) (text_outsideComments_congr h 0)
  simpa [tokensOf, Function.comp_def, Lexeme.token] using htexts

/-- Behind closed comments the rest of a text is read as a text of its own. -/
theorem outsideComments_append (h : CommentsClosed depth xs) :
    outsideComments depth (xs ++ ys) = outsideComments depth xs ++ outsideComments 0 ys := by
  induction xs generalizing depth with
  | nil =>
    obtain rfl : depth = 0 := h
    rfl
  | cons x xs ih =>
    have hrest := ih (show CommentsClosed (x.depthAfter depth) xs from h)
    rw [List.cons_append, outsideComments, outsideComments, hrest]
    split <;> rfl

/-- Behind lexemes with all comments closed, the tokens go on with those of the other
    lexemes. -/
theorem tokensOf_append (h : CommentsClosed 0 xs) :
    tokensOf (xs ++ ys) = tokensOf xs ++ tokensOf ys := by
  rw [tokensOf, outsideComments_append h, List.map_append]
  rfl

theorem commentsClosed_append_iff (h : CommentsClosed depth xs) :
    CommentsClosed depth (xs ++ ys) ↔ CommentsClosed 0 ys := by
  rw [CommentsClosed, List.foldl_append, show xs.foldl _ depth = 0 from h]
  rfl

theorem CommentsClosed.append (hxs : CommentsClosed depth xs) (hys : CommentsClosed 0 ys) :
    CommentsClosed depth (xs ++ ys) :=
  (commentsClosed_append_iff hxs).2 hys

end Tokens

-- ---------------------------------------------------------------------------
-- Phrases and words
-- ---------------------------------------------------------------------------

/-- What a word is, apart from the place of its definition. -/
def Word.content (w : Word) : String × List Op :=
  (w.name, w.ops)

/-- Words with the same content have the same ops. -/
theorem opsOf_congr {vs ws : List Word} (h : vs.map Word.content = ws.map Word.content) :
    opsOf vs = opsOf ws := by
  have hflat := congrArg (List.flatMap Prod.snd) h
  rwa [List.flatMap_map, List.flatMap_map] at hflat

/-- Words with the same content are placed at the same addresses. -/
theorem entriesFrom_congr {vs ws : List Word} (h : vs.map Word.content = ws.map Word.content)
    (address : Nat) :
    (entriesFrom address vs).map (fun e => (e.name, e.address)) =
      (entriesFrom address ws).map (fun e => (e.name, e.address)) := by
  induction vs generalizing ws address with
  | nil =>
    obtain rfl := List.map_eq_nil_iff.1 h.symm
    rfl
  | cons v vs ih =>
    obtain ⟨w, ws, rfl, hcontent, hrest⟩ := List.map_eq_cons_iff.1 h.symm
    obtain ⟨hname, hops⟩ := Prod.mk.inj hcontent
    simp only [entriesFrom, List.map_cons, hname, hops, ih hrest.symm]

/-- Words that are equal up to places bind names to the same addresses. -/
theorem Image.address?_place_congr {vs ws : List Word}
    (h : vs.map Word.content = ws.map Word.content) (d : Dictionary) (name : String) :
    (place d vs).address? name = (place d ws).address? name := by
  have haddress (entries : List Entry) : (⟨entries⟩ : Dictionary).address? name =
      ((entries.map fun e => (e.name, e.address)).find? (·.1 = name)).map (·.2) := by
    rw [List.find?_map, Option.map_map]
    rfl
  simp only [place_eq, haddress, List.map_append, List.map_reverse, entriesFrom_congr h]

namespace Phrase

def unplaced : Phrase → Phrase
  | done => done
  | simple s rest => simple s rest.unplaced
  | call name rest => call name rest.unplaced
  | ifThen yes rest => ifThen yes.unplaced rest.unplaced
  | ifThenElse yes no rest => ifThenElse yes.unplaced no.unplaced rest.unplaced
  | definition _ name body rest => definition default name body.unplaced rest.unplaced

@[simp] theorem code_unplaced (p : Phrase) : p.unplaced.code = p.code := by
  induction p with
  | done => rfl
  | simple s rest ih => simp [unplaced, code, ih]
  | call name rest ih => simp [unplaced, code, ih]
  | ifThen yes rest ihyes ihrest => simp [unplaced, code, ihyes, ihrest]
  | ifThenElse yes no rest ihyes ihno ihrest => simp [unplaced, code, ihyes, ihno, ihrest]
  | definition location name body rest _ ihrest => simp [unplaced, code, ihrest]

@[simp] theorem depth_unplaced (p : Phrase) : p.unplaced.depth = p.depth := by
  induction p with
  | done => rfl
  | simple s rest ih => simp [unplaced, depth, ih]
  | call name rest ih => simp [unplaced, depth, ih]
  | ifThen yes rest ihyes ihrest => simp [unplaced, depth, ihyes, ihrest]
  | ifThenElse yes no rest ihyes ihno ihrest => simp [unplaced, depth, ihyes, ihno, ihrest]
  | definition location name body rest ihbody ihrest => simp [unplaced, depth, ihbody, ihrest]

theorem content_definedWords_unplaced (p : Phrase) :
    p.unplaced.definedWords.map Word.content = p.definedWords.map Word.content := by
  simp only [definedWords, List.map_map]
  induction p with
  | done => rfl
  | simple s rest ih => exact ih
  | call name rest ih => exact ih
  | ifThen yes rest ihyes ihrest => simp [unplaced, definitions, ihyes, ihrest]
  | ifThenElse yes no rest ihyes ihno ihrest => simp [unplaced, definitions, ihyes, ihno, ihrest]
  | definition location name body rest _ ihrest =>
    simp [unplaced, definitions, ihrest, Definition.word, Word.content]

variable {p q : Phrase}

/-- Phrases that differ in places only have words with the same content. -/
theorem content_words_congr (h : p.unplaced = q.unplaced) (start start' : Location) :
    (p.words start).map Word.content = (q.words start').map Word.content := by
  rw [words, words, List.map_append, List.map_append, ← content_definedWords_unplaced, h,
    content_definedWords_unplaced, ← p.code_unplaced, h, code_unplaced]
  rfl

/-- Whether a phrase fits does not depend on its places. -/
theorem Fits.congr (hq : q.Fits) (h : p.unplaced = q.unplaced) : p.Fits := by
  rw [fits_iff_words _ default] at hq ⊢
  intro w hw
  have hmem := List.mem_map_of_mem (f := Word.content) hw
  rw [content_words_congr h default default] at hmem
  obtain ⟨w', hw', hcontent⟩ := List.mem_map.1 hmem
  rw [show w.ops = w'.ops from (Prod.mk.inj hcontent).2.symm]
  exact hq w' hw'

end Phrase

/-- The images agree in all but the places of the definitions. -/
structure Image.Agrees (image image' : Image) : Prop where
  code : image.code = image'.code
  constants : image.constants = image'.constants
  blocks : image.dictionary.blocks.map (fun e => (e.name, e.address, e.size)) =
    image'.dictionary.blocks.map fun e => (e.name, e.address, e.size)

theorem variableFollows_congr {ts ts' : List Token} (h : ts'.map (·.payload) = ts.map (·.payload)) :
    variableFollows ts' = variableFollows ts := by
  cases ts with
  | nil => rw [List.map_eq_nil_iff.1 h]
  | cons t ts =>
    obtain ⟨t', ts', rfl, ht, -⟩ := List.map_eq_cons_iff.1 h
    simp [variableFollows, Token.isIdentifier, ht]

/-- Tokens with the same meanings spell the same phrase, up to places. -/
theorem Derives.exists_of_payload {inside : Bool} {ts ts' : List Token} {p : Phrase}
    (h : Derives inside ts p) (heq : ts'.map (·.payload) = ts.map (·.payload)) :
    ∃ p', Derives inside ts' p' ∧ p'.unplaced = p.unplaced := by
  induction h generalizing ts' with
  | done =>
    obtain rfl := List.map_eq_nil_iff.1 heq
    exact ⟨.done, .done, rfl⟩
  | @literal inside t v ts rest hv _ ih =>
    obtain ⟨t', ts', rfl, ht, hts⟩ := List.map_eq_cons_iff.1 heq
    obtain ⟨rest', hrest', hunplaced⟩ := ih hts
    have hv' : t'.value? = some v := by rwa [Token.value?, ht]
    exact ⟨_, .literal hv' hrest', by simp [Phrase.unplaced, hunplaced]⟩
  | primitive hname hp _ ih =>
    obtain ⟨t', ts', rfl, ht, hts⟩ := List.map_eq_cons_iff.1 heq
    obtain ⟨rest', hrest', hunplaced⟩ := ih hts
    exact ⟨_, .primitive (ht.trans hname) hp hrest', by simp [Phrase.unplaced, hunplaced]⟩
  | store hname hp hmark _ ih =>
    obtain ⟨t', _, rfl, ht, htail⟩ := List.map_eq_cons_iff.1 heq
    obtain ⟨mark', ts', rfl, hm, hts⟩ := List.map_eq_cons_iff.1 htail
    obtain ⟨rest', hrest', hunplaced⟩ := ih hts
    exact ⟨_, .store (ht.trans hname) hp (hm.trans hmark) hrest',
      by simp [Phrase.unplaced, hunplaced]⟩
  | fetch hname hp hmark _ ih =>
    obtain ⟨t', _, rfl, ht, htail⟩ := List.map_eq_cons_iff.1 heq
    obtain ⟨mark', ts', rfl, hm, hts⟩ := List.map_eq_cons_iff.1 htail
    obtain ⟨rest', hrest', hunplaced⟩ := ih hts
    exact ⟨_, .fetch (ht.trans hname) hp (hm.trans hmark) hrest',
      by simp [Phrase.unplaced, hunplaced]⟩
  | call hname hp hfollows _ ih =>
    obtain ⟨t', ts', rfl, ht, hts⟩ := List.map_eq_cons_iff.1 heq
    obtain ⟨rest', hrest', hunplaced⟩ := ih hts
    have hfollows' := (variableFollows_congr hts).trans hfollows
    exact ⟨_, .call (ht.trans hname) hp hfollows' hrest', by simp [Phrase.unplaced, hunplaced]⟩
  | ifThen hopening _ hclosing _ ihyes ihrest =>
    obtain ⟨opening', _, rfl, ho, htail⟩ := List.map_eq_cons_iff.1 heq
    rw [List.map_append, List.map_cons] at htail
    obtain ⟨us', _, rfl, hus, hbehind⟩ := List.map_eq_append_iff.1 htail
    obtain ⟨closing', ts', rfl, hc, hts⟩ := List.map_eq_cons_iff.1 hbehind
    obtain ⟨yes', hyes', hyesEq⟩ := ihyes hus
    obtain ⟨rest', hrest', hrestEq⟩ := ihrest hts
    exact ⟨_, .ifThen (ho.trans hopening) hyes' (hc.trans hclosing) hrest',
      by simp [Phrase.unplaced, hyesEq, hrestEq]⟩
  | ifThenElse hopening _ hmiddle _ hclosing _ ihyes ihno ihrest =>
    obtain ⟨opening', _, rfl, ho, htail⟩ := List.map_eq_cons_iff.1 heq
    rw [List.map_append, List.map_cons, List.map_append, List.map_cons] at htail
    obtain ⟨us', _, rfl, hus, hmid⟩ := List.map_eq_append_iff.1 htail
    obtain ⟨middle', _, rfl, hm, hno⟩ := List.map_eq_cons_iff.1 hmid
    obtain ⟨vs', _, rfl, hvs, hbehind⟩ := List.map_eq_append_iff.1 hno
    obtain ⟨closing', ts', rfl, hc, hts⟩ := List.map_eq_cons_iff.1 hbehind
    obtain ⟨yes', hyes', hyesEq⟩ := ihyes hus
    obtain ⟨no', hno', hnoEq⟩ := ihno hvs
    obtain ⟨rest', hrest', hrestEq⟩ := ihrest hts
    exact ⟨_, .ifThenElse (ho.trans hopening) hyes' (hm.trans hmiddle) hno' (hc.trans hclosing)
      hrest', by simp [Phrase.unplaced, hyesEq, hnoEq, hrestEq]⟩
  | definition hopening htitle _ hclosing _ ihbody ihrest =>
    obtain ⟨opening', _, rfl, ho, htail⟩ := List.map_eq_cons_iff.1 heq
    obtain ⟨title', _, rfl, ht, hbody⟩ := List.map_eq_cons_iff.1 htail
    rw [List.map_append, List.map_cons] at hbody
    obtain ⟨us', _, rfl, hus, hbehind⟩ := List.map_eq_append_iff.1 hbody
    obtain ⟨closing', ts', rfl, hc, hts⟩ := List.map_eq_cons_iff.1 hbehind
    obtain ⟨body', hbody', hbodyEq⟩ := ihbody hus
    obtain ⟨rest', hrest', hrestEq⟩ := ihrest hts
    exact ⟨_, .definition (ho.trans hopening) (ht.trans htitle) hbody' (hc.trans hclosing) hrest',
      by simp [Phrase.unplaced, hbodyEq, hrestEq]⟩

end Forth
