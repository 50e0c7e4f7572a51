-- SUMMARY: Lookahead: whatever is asked of a reader, in any order, it follows one stream of tokens.
import Forth.Proofs.Tokenizing
import Forth.Token.Reader

/-!
# Lookahead

A reader can be asked to read, to look ahead and to take a token back, in any order.
What it answers is said by a supply: the tokens of the text that are left, perhaps a
failure behind them, and a slot for one pending token. Whatever is asked, a supply hands
over its tokens one by one, and none of them twice.

A reader takes its tokens from a buffer that looks at one character ahead. It answers as
a lexer, which has split its text into lexemes before, and a lexer answers as the supply
of the tokens between its comments.
-/

namespace Forth

-- ---------------------------------------------------------------------------
-- Queries
-- ---------------------------------------------------------------------------

/-- What a reader of tokens is asked for. -/
inductive Query where
  | next
  | peek
  | unread (t : Token)

/-- What it answers: a token or a failure to read one, that a token is taken back, or that
    it is refused. -/
inductive Answer where
  | read (r : Except SyntaxError Token)
  | taken
  | refused (e : SyntaxError)

section Queries

variable {σ τ : Type}

def Answer.ofRead : EStateM.Result SyntaxError σ Token → Answer × σ
  | .ok t s => (.read (.ok t), s)
  | .error e s => (.read (.error e), s)

def Answer.ofUnread : EStateM.Result SyntaxError σ Unit → Answer × σ
  | .ok () s => (.taken, s)
  | .error e s => (.refused e, s)

/-- The answers to queries that are asked one after the other, and the state behind them. -/
def serve (ask : σ → Query → Answer × σ) : σ → List Query → List Answer × σ
  | s, [] => ([], s)
  | s, q :: qs => ((ask s q).1 :: (serve ask (ask s q).2 qs).1, (serve ask (ask s q).2 qs).2)

/-- A view that commutes with every query commutes with all of them. -/
theorem serve_view {ask : σ → Query → Answer × σ} {ask' : τ → Query → Answer × τ} (view : σ → τ)
    (h : ∀ s q, ask' (view s) q = ((ask s q).1, view (ask s q).2)) (s : σ) (qs : List Query) :
    serve ask' (view s) qs = ((serve ask s qs).1, view (serve ask s qs).2) := by
  induction qs generalizing s with
  | nil => rfl
  | cons q qs ih =>
    simp only [serve, h]
    rw [ih]

end Queries

def Reader.ask (r : Reader) : Query → Answer × Reader
  | .next => Answer.ofRead (next r)
  | .peek => Answer.ofRead (peek r)
  | .unread t => Answer.ofUnread (unread t r)

def Lexer.ask (l : Lexer) : Query → Answer × Lexer
  | .next => Answer.ofRead (next l)
  | .peek => Answer.ofRead (peek l)
  | .unread t => Answer.ofUnread (unread t l)

/-- What is handed over for good by queries and their answers: the tokens and failures of
    reads, and the failures met by looking ahead. A token that was taken back does not
    count when it is read, and `returned` says whether one is pending. -/
def handedOver (returned : Bool) : List (Query × Answer) → List (Except SyntaxError Token)
  | [] => []
  | (.next, .read r) :: log =>
    if returned then handedOver false log else r :: handedOver false log
  | (.peek, .read (.error e)) :: log => .error e :: handedOver returned log
  | (.unread _, .taken) :: log => handedOver true log
  | _ :: log => handedOver returned log

-- ---------------------------------------------------------------------------
-- Supplies
-- ---------------------------------------------------------------------------

/-- The results of reads that are left, the end of the text behind them, and a pending
    token. -/
structure Supply where
  left : List (Except SyntaxError Token)
  finish : Location
  pending : Option Token := none

/-- The tokens of a text, without its end, and behind them perhaps a comment that is not
    closed. -/
inductive Orderly : List (Except SyntaxError Token) → Prop where
  | nil : Orderly []
  | unclosed {e : SyntaxError} : e.fault = .unclosedComment → Orderly [.error e]
  | cons {t : Token} {rs : List (Except SyntaxError Token)} :
      t.isEnd = false → Orderly rs → Orderly (.ok t :: rs)

namespace Supply

variable {s : Supply} {t : Token} {e : SyntaxError}

/-- The next fresh result. The end of the text comes behind all others and is never used
    up. -/
def head (s : Supply) : Except SyntaxError Token :=
  s.left.headD (.ok ⟨s.finish, .endOfInput⟩)

/-- The fresh result behind `n` others. -/
def get (s : Supply) (n : Nat) : Except SyntaxError Token :=
  s.left[n]?.getD (.ok ⟨s.finish, .endOfInput⟩)

/-- A read takes the pending token, or else the next fresh result. Looking ahead makes a
    fresh token pending. A token is taken back if none is pending. -/
def ask (s : Supply) : Query → Answer × Supply
  | .next =>
    match s.pending with
    | some t => (.read (.ok t), { s with pending := none })
    | none => (.read s.head, { s with left := s.left.tail })
  | .peek =>
    match s.pending with
    | some t => (.read (.ok t), s)
    | none => (.read s.head, { s with left := s.left.tail, pending := s.head.toOption })
  | .unread t =>
    match s.pending with
    | some p => (.refused ⟨t.location, .alreadyPending p t⟩, s)
    | none => (.taken, { s with pending := some t })

theorem ask_next_of_some (h : s.pending = some t) :
    s.ask .next = (.read (.ok t), { s with pending := none }) := by
  simp only [ask, h]

theorem ask_next_of_none (h : s.pending = none) :
    s.ask .next = (.read s.head, { s with left := s.left.tail }) := by
  simp only [ask, h]

theorem ask_peek_of_some (h : s.pending = some t) : s.ask .peek = (.read (.ok t), s) := by
  simp only [ask, h]

theorem ask_peek_of_none (h : s.pending = none) :
    s.ask .peek =
      (.read s.head, { s with left := s.left.tail, pending := s.head.toOption }) := by
  simp only [ask, h]

theorem ask_unread_of_some {p : Token} (h : s.pending = some p) (t : Token) :
    s.ask (.unread t) = (.refused ⟨t.location, .alreadyPending p t⟩, s) := by
  simp only [ask, h]

theorem ask_unread_of_none (h : s.pending = none) (t : Token) :
    s.ask (.unread t) = (.taken, { s with pending := some t }) := by
  simp only [ask, h]

/-- Looking ahead answers what a read would. -/
theorem ask_peek_eq_next (s : Supply) : (s.ask .peek).1 = (s.ask .next).1 := by
  cases h : s.pending with
  | some t => rw [ask_peek_of_some h, ask_next_of_some h]
  | none => rw [ask_peek_of_none h, ask_next_of_none h]

theorem get_zero (s : Supply) : s.get 0 = s.head := by
  cases h : s.left <;> simp [get, head, h]

theorem get_succ (s : Supply) (n : Nat) :
    s.get (n + 1) = { s with left := s.left.tail }.get n := by
  cases h : s.left <;> simp [get, h]

theorem head_of_nil (h : s.left = []) : s.head = .ok ⟨s.finish, .endOfInput⟩ := by
  rw [head, h]
  rfl

/-- Behind all results no read fails. -/
theorem read_error_notMem_of_nil (h : s.left = []) (e : SyntaxError) (qs : List Query) :
    .read (.error e) ∉ (serve ask s qs).1 ∧ (serve ask s qs).2.left = [] := by
  induction qs generalizing s with
  | nil => exact ⟨List.not_mem_nil, h⟩
  | cons q qs ih =>
    have hstep : (s.ask q).1 ≠ .read (.error e) ∧ (s.ask q).2.left = [] := by
      cases q <;> cases hp : s.pending <;> simp [ask, hp, h, head_of_nil h]
    obtain ⟨hrest, hleft⟩ := ih hstep.2
    exact ⟨by simp [serve, hstep.1.symm, hrest], hleft⟩

theorem serve_peeks_of_some (h : s.pending = some t) (n : Nat) :
    (serve ask s (.replicate n .peek)).2 = s := by
  induction n with
  | zero => rfl
  | succ n ih =>
    rw [List.replicate_succ, serve, ask_peek_of_some h]
    exact ih

/-- A failure that is met by looking ahead is the last result, and leaves nothing pending. -/
theorem ask_peek_error (hleft : Orderly s.left) (h : (s.ask .peek).1 = .read (.error e)) :
    (s.ask .peek).2.pending = none ∧ (s.ask .peek).2.left = [] := by
  cases hp : s.pending with
  | some t =>
    rw [ask_peek_of_some hp] at h
    cases h
  | none =>
    rw [ask_peek_of_none hp] at h ⊢
    have hhead : s.head = .error e := Answer.read.inj h
    refine ⟨by rw [hhead]; rfl, ?_⟩
    cases hs : s.left with
    | nil =>
      rw [head_of_nil hs] at hhead
      cases hhead
    | cons r rs =>
      rw [head, hs] at hhead
      obtain rfl : r = .error e := hhead
      rw [hs] at hleft
      cases hleft
      rfl

/-- Looking ahead, any number of times, uses up at most one fresh result. -/
theorem serve_peeks_left (hleft : Orderly s.left) (n : Nat) :
    (serve ask s (.replicate n .peek)).2.left = s.left ∨
      (serve ask s (.replicate n .peek)).2.left = s.left.tail := by
  cases n with
  | zero => exact .inl rfl
  | succ n =>
    rw [List.replicate_succ, serve]
    cases hp : s.pending with
    | some t =>
      rw [ask_peek_of_some hp, serve_peeks_of_some hp]
      exact .inl rfl
    | none =>
      right
      cases hhead : s.head with
      | ok t =>
        rw [ask_peek_of_none hp, hhead]
        rw [serve_peeks_of_some rfl]
      | error e =>
        have hanswer : (s.ask .peek).1 = .read (.error e) := by rw [ask_peek_of_none hp, hhead]
        have hnil := (ask_peek_error hleft hanswer).2
        rw [(read_error_notMem_of_nil hnil e _).2, ← hnil, ask_peek_of_none hp]

/-- The results that a supply has still to hand over: `returned` says whether the pending
    token was handed over before and taken back. -/
inductive Owes (s : Supply) : Bool → (Nat → Except SyntaxError Token) → Prop where
  | left {rs : Nat → Except SyntaxError Token} :
      s.pending = none → (∀ n, rs n = s.get n) → Owes s false rs
  | ahead {t : Token} {rs : Nat → Except SyntaxError Token} :
      s.pending = some t → rs 0 = .ok t → (∀ n, rs (n + 1) = s.get n) → Owes s false rs
  | returned {t : Token} {rs : Nat → Except SyntaxError Token} :
      s.pending = some t → (∀ n, rs n = s.get n) → Owes s true rs

/-- A query hands over nothing, or the next result that is owed. -/
theorem Owes.ask {returned : Bool} {rs : Nat → Except SyntaxError Token}
    (h : s.Owes returned rs) (q : Query) :
    ∃ returned',
      ((s.ask q).2.Owes returned' rs ∧
        ∀ log, handedOver returned ((q, (s.ask q).1) :: log) = handedOver returned' log) ∨
      ((s.ask q).2.Owes returned' (fun n => rs (n + 1)) ∧
        ∀ log, handedOver returned ((q, (s.ask q).1) :: log) = rs 0 :: handedOver returned' log) := by
  cases h with
  | left hp hrs =>
    have hhead : rs 0 = s.head := (hrs 0).trans s.get_zero
    have htail (n : Nat) : rs (n + 1) = { s with left := s.left.tail }.get n :=
      (hrs (n + 1)).trans (s.get_succ n)
    cases q with
    | next =>
      rw [ask_next_of_none hp]
      exact ⟨false, .inr ⟨.left hp htail, fun log => by rw [hhead]; rfl⟩⟩
    | peek =>
      rw [ask_peek_of_none hp]
      cases hr : s.head with
      | ok t => exact ⟨false, .inl ⟨.ahead rfl (hhead.trans hr) htail, fun _ => rfl⟩⟩
      | error e =>
        exact ⟨false, .inr ⟨.left rfl htail, fun log => by rw [hhead, hr]; rfl⟩⟩
    | unread t =>
      rw [ask_unread_of_none hp]
      exact ⟨true, .inl ⟨.returned rfl hrs, fun _ => rfl⟩⟩
  | ahead hp hfirst hrest =>
    cases q with
    | next =>
      rw [ask_next_of_some hp]
      exact ⟨false, .inr ⟨.left rfl hrest, fun log => by rw [hfirst]; rfl⟩⟩
    | peek =>
      rw [ask_peek_of_some hp]
      exact ⟨false, .inl ⟨.ahead hp hfirst hrest, fun _ => rfl⟩⟩
    | unread t =>
      rw [ask_unread_of_some hp]
      exact ⟨false, .inl ⟨.ahead hp hfirst hrest, fun _ => rfl⟩⟩
  | returned hp hrs =>
    cases q with
    | next =>
      rw [ask_next_of_some hp]
      exact ⟨false, .inl ⟨.left rfl hrs, fun _ => rfl⟩⟩
    | peek =>
      rw [ask_peek_of_some hp]
      exact ⟨true, .inl ⟨.returned hp hrs, fun _ => rfl⟩⟩
    | unread t =>
      rw [ask_unread_of_some hp]
      exact ⟨true, .inl ⟨.returned hp hrs, fun _ => rfl⟩⟩

/-- No result is lost, none is handed over twice, and their order is kept. -/
theorem Owes.getElem?_handedOver {returned : Bool} {rs : Nat → Except SyntaxError Token}
    (h : s.Owes returned rs) (qs : List Query) {n : Nat} {r : Except SyntaxError Token}
    (hr : (handedOver returned (qs.zip (serve Supply.ask s qs).1))[n]? = some r) : r = rs n := by
  induction qs generalizing s returned rs n with
  | nil => cases hr
  | cons q qs ih =>
    rw [serve, List.zip_cons_cons] at hr
    obtain ⟨returned', ⟨howes, hlog⟩ | ⟨howes, hlog⟩⟩ := h.ask q
    · rw [hlog] at hr
      exact ih howes hr
    · rw [hlog] at hr
      cases n with
      | zero => exact (Option.some.inj hr).symm
      | succ n => exact ih howes hr

end Supply

-- ---------------------------------------------------------------------------
-- Lexers
-- ---------------------------------------------------------------------------

namespace Lexer

variable {l : Lexer}

/-- The results of reading lexemes to their end. The comment is the one that the first
    lexeme stands in. -/
def results : Option Comment → List Lexeme → List (Except SyntaxError Token)
  | none, [] => []
  | some c, [] => [.error ⟨c.start, .unclosedComment⟩]
  | none, x :: xs =>
    if x.text = "(" then results (some { start := x.location }) xs
    else .ok x.token :: results none xs
  | some c, x :: xs => results (Comment.ofDepth c.start (x.depthAfter (c.inner + 1))) xs

/-- The results of reading lexemes are tokens, and then perhaps one failure. -/
theorem orderly_results (c : Option Comment) (xs : List Lexeme) : Orderly (results c xs) := by
  fun_induction results c xs with
  | case1 => exact .nil
  | case2 c => exact .unclosed rfl
  | case3 x xs _ ih => exact ih
  | case4 x xs _ ih => exact .cons x.isEnd_token ih
  | case5 c x xs ih => exact ih

/-- A read gives the first result and leaves the others. -/
theorem scan_results (finish : Location) (c : Option Comment) (xs : List Lexeme) :
    (Answer.ofRead (scan finish c xs)).1 =
        .read ((results c xs).headD (.ok ⟨finish, .endOfInput⟩)) ∧
      results none (Answer.ofRead (scan finish c xs)).2 = (results c xs).tail := by
  fun_induction results c xs with
  | case1 => exact ⟨rfl, rfl⟩
  | case2 c => exact ⟨rfl, rfl⟩
  | case3 x xs hx ih =>
    rw [scan, if_pos hx]
    exact ih
  | case4 x xs hx ih =>
    rw [scan, if_neg hx]
    exact ⟨rfl, rfl⟩
  | case5 c x xs ih =>
    have hscan : scan finish (some c) (x :: xs) =
        scan finish (Comment.ofDepth c.start (x.depthAfter (c.inner + 1))) xs :=
      scan_inside c.start c.inner x xs
    rw [hscan]
    exact ih

/-- The results that are left in a lexer, and its pending token. -/
def supply (l : Lexer) : Supply where
  left := results none l.lexemes
  finish := l.finish
  pending := l.pending

/-- A fresh read of a lexer is the head of its supply. -/
theorem fresh_supply (l : Lexer) :
    (Answer.ofRead (fresh l)).1 = .read l.supply.head ∧
      (Answer.ofRead (fresh l)).2.supply = { l.supply with left := l.supply.left.tail } := by
  obtain ⟨hhead, htail⟩ := scan_results l.finish none l.lexemes
  unfold fresh
  cases hscan : scan l.finish none l.lexemes with
  | ok t rest =>
    rw [hscan] at hhead htail
    exact ⟨hhead, by simp only [Answer.ofRead, supply, ← htail]⟩
  | error e rest =>
    rw [hscan] at hhead htail
    exact ⟨hhead, by simp only [Answer.ofRead, supply, ← htail]⟩

/-- A lexer answers as the supply of what is left in it. -/
theorem supply_ask (l : Lexer) (q : Query) :
    l.supply.ask q = ((l.ask q).1, (l.ask q).2.supply) := by
  obtain ⟨xs, finish, pending⟩ := l
  cases pending with
  | some t => cases q <;> rfl
  | none =>
    obtain ⟨hhead, htail⟩ := fresh_supply ⟨xs, finish, none⟩
    cases q with
    | next => exact Prod.ext hhead.symm htail.symm
    | peek =>
      rw [Supply.ask_peek_of_none rfl, ask, peek]
      dsimp only
      cases hfresh : fresh ⟨xs, finish, none⟩ with
      | ok t l' =>
        rw [hfresh] at hhead htail
        rw [← Answer.read.inj hhead]
        exact Prod.ext rfl (congrArg (fun s : Supply => { s with pending := some t }) htail).symm
      | error e l' =>
        rw [hfresh] at hhead htail
        rw [← Answer.read.inj hhead]
        exact Prod.ext rfl htail.symm
    | unread t => rfl

theorem readOnce_supply (h : l.pending = none) :
    l.readOnce.1 = l.supply.head ∧
      l.readOnce.2.supply = { l.supply with left := l.supply.left.tail } := by
  have honce : l.ask .next = (.read l.readOnce.1, l.readOnce.2) := by
    rw [ask, readOnce]
    cases next l <;> rfl
  have hask := l.supply_ask .next
  rw [Supply.ask_next_of_none h, honce, Prod.mk.injEq, Answer.read.injEq] at hask
  exact ⟨hask.1.symm, hask.2.symm⟩

/-- The reads of a lexer in a row give the results that are left in it. -/
theorem read_eq_get (n : Nat) (h : l.pending = none) : l.read n = l.supply.get n := by
  induction n generalizing l with
  | zero => rw [read, (readOnce_supply h).1, Supply.get_zero]
  | succ n ih =>
    obtain ⟨-, hrest⟩ := readOnce_supply h
    rw [read, ih ((congrArg Supply.pending hrest).trans h), hrest, Supply.get_succ]

end Lexer

-- ---------------------------------------------------------------------------
-- Buffers
-- ---------------------------------------------------------------------------

namespace Cursor

variable {c c' : Cursor}

theorem skip_of_nil {p : Char → Bool} (h : c.rest.takeWhile p = []) : c.skip p = c := by
  have hsplit := List.takeWhile_append_dropWhile (p := p) (l := c.rest)
  rw [h, List.nil_append] at hsplit
  rw [skip, h, hsplit]
  rfl

/-- Behind the last lexeme there is none. -/
theorem lexeme_of_lexeme_none (h : c.lexeme = (none, c')) : c'.lexeme = (none, c') := by
  obtain ⟨hrest, -⟩ := of_lexeme_none h
  unfold lexeme skip at h
  rw [hrest] at h
  cases h
  rfl

end Cursor

namespace Buffer

variable {b b' : Buffer} {x : Lexeme}

/-- The cursor on the characters that are not consumed. -/
def cursor (b : Buffer) : Cursor :=
  ⟨b.current.toList ++ b.chars, b.location⟩

/-- Looking at a character does not move the cursor. -/
theorem peek_cursor (b : Buffer) : b.peek.1 = b.cursor.peek? ∧ b.peek.2.cursor = b.cursor := by
  obtain ⟨chars, location, current⟩ := b
  cases current with
  | some c => exact ⟨rfl, rfl⟩
  | none => cases chars <;> exact ⟨rfl, rfl⟩

/-- A buffer reads the character that its cursor is in front of. -/
theorem next_cursor (b : Buffer) :
    b.next.1 = b.cursor.next.1 ∧ b.next.2.cursor = b.cursor.next.2 := by
  obtain ⟨chars, location, current⟩ := b
  cases current with
  | some c => exact ⟨rfl, rfl⟩
  | none => cases chars <;> exact ⟨rfl, rfl⟩

/-- The character that is looked at is the first one that is not consumed. -/
theorem cursor_of_peek_some {c : Char} (h : b.peek = (some c, b')) :
    ∃ rest, b.cursor = ⟨c :: rest, b.location⟩ ∧ b'.cursor = ⟨c :: rest, b.location⟩ ∧
      b'.next.2.cursor = ⟨rest, b.location.after c⟩ := by
  obtain ⟨hhead, hcursor⟩ := b.peek_cursor
  rw [h] at hhead hcursor
  obtain ⟨rest, hrest⟩ := List.head?_eq_some_iff.1 hhead.symm
  have hb : b.cursor = ⟨c :: rest, b.location⟩ := congrArg (Cursor.mk · b.location) hrest
  refine ⟨rest, hb, hcursor.trans hb, ?_⟩
  rw [b'.next_cursor.2, hcursor, hb]
  rfl

theorem cursor_of_peek_none (h : b.peek = (none, b')) :
    b.cursor = ⟨[], b.location⟩ ∧ b'.cursor = ⟨[], b.location⟩ := by
  obtain ⟨hhead, hcursor⟩ := b.peek_cursor
  rw [h] at hhead hcursor
  have hb : b.cursor = ⟨[], b.location⟩ :=
    congrArg (Cursor.mk · b.location) (List.head?_eq_none_iff.1 hhead.symm)
  exact ⟨hb, hcursor.trans hb⟩

/-- A run is read as the cursor skips it. -/
theorem takeWhile_cursor (p : Char → Bool) (b : Buffer) :
    (b.takeWhile p).1 = b.cursor.rest.takeWhile p ∧
      (b.takeWhile p).2.cursor = b.cursor.skip p := by
  fun_induction takeWhile p b with
  | case1 b b' h =>
    obtain ⟨hb, hb'⟩ := cursor_of_peek_none h
    rw [hb, hb']
    exact ⟨rfl, rfl⟩
  | case2 b c b' h hlt hp cs rest hrest ih =>
    obtain ⟨chars, hb, -, hnext⟩ := cursor_of_peek_some h
    rw [hrest, hnext] at ih
    rw [hb, Cursor.skip, List.takeWhile_cons_of_pos hp, List.dropWhile_cons_of_pos hp]
    exact ⟨congrArg _ ih.1, ih.2⟩
  | case3 b c b' h hlt hp =>
    obtain ⟨chars, hb, hb', -⟩ := cursor_of_peek_some h
    rw [hb, hb', Cursor.skip, List.takeWhile_cons_of_neg hp, List.dropWhile_cons_of_neg hp]
    exact ⟨rfl, rfl⟩

/-- A buffer reads the lexeme that its cursor is in front of. -/
theorem lexeme_cursor (b : Buffer) :
    b.lexeme.1 = b.cursor.lexeme.1 ∧ b.lexeme.2.cursor = b.cursor.lexeme.2 := by
  obtain ⟨-, hblanks⟩ := b.takeWhile_cursor Text.isBlank
  unfold lexeme Cursor.lexeme
  dsimp only
  generalize (b.takeWhile Text.isBlank).2 = b' at hblanks ⊢
  obtain ⟨hword, hrest⟩ := b'.takeWhile_cursor (!Text.isBlank ·)
  rw [← hblanks, ← hword]
  cases hcs : b'.takeWhile (!Text.isBlank ·) with
  | mk cs rest =>
    rw [hcs] at hword hrest
    cases cs with
    | nil => exact ⟨rfl, hrest.trans (Cursor.skip_of_nil hword.symm)⟩
    | cons c cs => exact ⟨rfl, hrest⟩

def lexemes (b : Buffer) : List Lexeme :=
  b.cursor.lexemes.1

def finish (b : Buffer) : Location :=
  b.cursor.lexemes.2

theorem lexemes_of_none (h : b.lexeme = (none, b')) :
    b.lexemes = [] ∧ b'.lexemes = [] ∧ b'.finish = b.finish ∧ b'.location = b.finish := by
  have hlexeme : b.cursor.lexeme = (none, b'.cursor) := by
    obtain ⟨hnone, hcursor⟩ := b.lexeme_cursor
    rw [h] at hnone hcursor
    exact Prod.ext hnone.symm hcursor.symm
  have hb := Cursor.lexemes_of_none hlexeme
  have hb' := Cursor.lexemes_of_none (Cursor.lexeme_of_lexeme_none hlexeme)
  rw [lexemes, lexemes, finish, finish, hb, hb']
  exact ⟨rfl, rfl, rfl, rfl⟩

/-- The lexeme that is read is the first of those that are left, and the end of the text
    stays. -/
theorem lexemes_of_some (h : b.lexeme = (some x, b')) :
    b.lexemes = x :: b'.lexemes ∧ b'.finish = b.finish := by
  have hlexeme : b.cursor.lexeme = (some x, b'.cursor) := by
    obtain ⟨hsome, hcursor⟩ := b.lexeme_cursor
    rw [h] at hsome hcursor
    exact Prod.ext hsome.symm hcursor.symm
  rw [lexemes, finish, finish, Cursor.lexemes_of_some hlexeme]
  exact ⟨rfl, rfl⟩

end Buffer

-- ---------------------------------------------------------------------------
-- Readers
-- ---------------------------------------------------------------------------

def mapState {ε σ τ α : Type} (view : σ → τ) : EStateM.Result ε σ α → EStateM.Result ε τ α
  | .ok a s => .ok a (view s)
  | .error e s => .error e (view s)

theorem Answer.ofRead_mapState {σ τ : Type} (view : σ → τ)
    (r : EStateM.Result SyntaxError σ Token) :
    Answer.ofRead (mapState view r) = ((Answer.ofRead r).1, view (Answer.ofRead r).2) := by
  cases r <;> rfl

namespace Reader

variable {b b' : Buffer} {start : Location} {depth : Nat} {e : SyntaxError} {r : Reader}

/-- The lexer that has split the rest of the text into lexemes. -/
def lexer (r : Reader) : Lexer where
  lexemes := r.buffer.lexemes
  finish := r.buffer.finish
  pending := r.pending

theorem skipComment_of_some {inner : Nat} {x : Lexeme} (h : b.lexeme = (some x, b')) :
    skipComment start (inner + 1) b = skipComment start (x.depthAfter (inner + 1)) b' := by
  rw [skipComment, Lexeme.depthAfter]
  split
  · rename_i hnone
    rw [h] at hnone
    cases hnone
  · rename_i hsome
    rw [h] at hsome
    cases hsome
    split
    · rfl
    · split <;> rfl

/-- A comment that is not closed fails at its start. -/
theorem skipComment_of_none {inner : Nat} (h : b.lexeme = (none, b')) :
    skipComment start (inner + 1) b = .error ⟨start, .unclosedComment⟩ b' := by
  rw [skipComment]
  split
  · rename_i hnone
    rw [h] at hnone
    cases hnone
    rfl
  · rename_i hsome
    rw [h] at hsome
    cases hsome

/-- A comment that is skipped is passed over by a lexer, and one that is not closed fails
    there too. -/
theorem scan_skipComment (start : Location) (depth : Nat) (b : Buffer) :
    (∃ b', skipComment start depth b = .ok () b' ∧ b'.finish = b.finish ∧
      Lexer.scan b.finish (Lexer.Comment.ofDepth start depth) b.lexemes =
        Lexer.scan b.finish none b'.lexemes) ∨
    (∃ e b', skipComment start depth b = .error e b' ∧ b'.finish = b.finish ∧
      Lexer.scan b.finish (Lexer.Comment.ofDepth start depth) b.lexemes =
        .error e b'.lexemes) := by
  induction hn : b.remaining using Nat.strong_induction_on generalizing b depth with
  | _ n ih =>
    cases depth with
    | zero => exact .inl ⟨b, by rw [skipComment], rfl, rfl⟩
    | succ inner =>
      rcases hx : b.lexeme with ⟨_ | x, b₁⟩
      · obtain ⟨hb, hb₁, hfinish, -⟩ := Buffer.lexemes_of_none hx
        refine .inr ⟨_, b₁, skipComment_of_none hx, hfinish, ?_⟩
        rw [hb, hb₁]
        rfl
      · obtain ⟨hb, hfinish⟩ := Buffer.lexemes_of_some hx
        have hlt : b₁.remaining < n := hn ▸ Buffer.remaining_lexeme_lt hx
        rw [skipComment_of_some hx, hb, Lexer.scan_inside, ← hfinish]
        exact ih _ hlt (x.depthAfter (inner + 1)) b₁ rfl

/-- A reader reads what a lexer reads. -/
theorem fresh_lexer (r : Reader) : Lexer.fresh r.lexer = mapState lexer (fresh r) := by
  obtain ⟨b, pending⟩ := r
  unfold fresh
  dsimp only
  fun_induction scan b with
  | case1 b b' h =>
    obtain ⟨hb, hb', hfinish, hlocation⟩ := Buffer.lexemes_of_none h
    simp only [mapState, lexer, Lexer.fresh, hb, hb', hfinish, hlocation, Lexer.scan]
  | case2 b x b' h hopen rest hskip hlt ih =>
    obtain ⟨hb, hfinish⟩ := Buffer.lexemes_of_some h
    obtain ⟨_, hok, hrest, hscan⟩ | ⟨_, _, herror, -⟩ := scan_skipComment x.location 1 b'
    · cases hskip.symm.trans hok
      rw [hfinish] at hscan hrest
      rw [← ih]
      simp only [lexer, Lexer.fresh, hb, hrest, Lexer.scan, if_pos hopen]
      rw [← hscan]
      rfl
    · cases hskip.symm.trans herror
  | case3 b x b' h hopen e rest hskip =>
    obtain ⟨hb, hfinish⟩ := Buffer.lexemes_of_some h
    obtain ⟨_, hok, -⟩ | ⟨_, _, herror, hrest, hscan⟩ := scan_skipComment x.location 1 b'
    · cases hskip.symm.trans hok
    · cases hskip.symm.trans herror
      rw [hfinish] at hscan hrest
      have hfresh : Lexer.scan b.finish (some { start := x.location }) b'.lexemes =
          .error e rest.lexemes := hscan
      simp only [mapState, lexer, Lexer.fresh, hb, hrest, Lexer.scan, if_pos hopen, hfresh]
  | case4 b x b' h hopen =>
    obtain ⟨hb, hfinish⟩ := Buffer.lexemes_of_some h
    simp only [mapState, lexer, Lexer.fresh, hb, hfinish, Lexer.scan, if_neg hopen]

/-- A reader reads what the lexer of its rest does. -/
theorem next_lexer (r : Reader) : Lexer.next r.lexer = mapState lexer (next r) := by
  obtain ⟨b, pending⟩ := r
  cases pending with
  | some t => rfl
  | none => exact fresh_lexer ⟨b, none⟩

/-- A reader looks ahead as the lexer of its rest does. -/
theorem peek_lexer (r : Reader) : Lexer.peek r.lexer = mapState lexer (peek r) := by
  obtain ⟨b, pending⟩ := r
  cases pending with
  | some t => rfl
  | none =>
    have hfresh := fresh_lexer ⟨b, none⟩
    cases hr : fresh ⟨b, none⟩ with
    | ok t r' =>
      rw [hr] at hfresh
      simp only [peek, hr, Lexer.peek, hfresh, mapState]
      simp only [lexer]
    | error e r' =>
      rw [hr] at hfresh
      simp only [peek, hr, Lexer.peek, hfresh, mapState]
      simp only [lexer]

/-- A reader answers as the lexer on the rest of its text. -/
theorem lexer_ask (r : Reader) (q : Query) :
    r.lexer.ask q = ((r.ask q).1, (r.ask q).2.lexer) := by
  cases q with
  | next => rw [ask, Lexer.ask, next_lexer, Answer.ofRead_mapState]
  | peek => rw [ask, Lexer.ask, peek_lexer, Answer.ofRead_mapState]
  | unread t =>
    obtain ⟨b, pending⟩ := r
    cases pending <;> rfl

/-- The results that are left in a reader, and its pending token. -/
def supply (r : Reader) : Supply :=
  r.lexer.supply

/-- A reader answers every query as its supply does. -/
theorem supply_ask (r : Reader) (q : Query) :
    r.supply.ask q = ((r.ask q).1, (r.ask q).2.supply) := by
  rw [supply, Lexer.supply_ask, lexer_ask]
  rfl

/-- How a reader `r` answers, with `s` the supply of what is left in its text. -/
structure Follows (r : Reader) (s : Supply) : Prop where
  pending_eq : r.pending = s.pending
  /-- A read takes the pending token. -/
  next_of_some : ∀ t, r.pending = some t →
    r.ask .next = (.read (.ok t), { r with pending := none })
  /-- Without one, a read takes the next fresh result. -/
  next_of_none : r.pending = none → (r.ask .next).1 = .read s.head
  peek_eq : (r.ask .peek).1 = (r.ask .next).1
  /-- Looking ahead, any number of times, uses up at most one fresh result. -/
  peeks : ∀ n, (serve Supply.ask s (.replicate n .peek)).2.left = s.left ∨
    (serve Supply.ask s (.replicate n .peek)).2.left = s.left.tail
  /-- A failure that is met by looking ahead leaves nothing pending, and no query meets a
      failure again. -/
  peek_error : ∀ e, (r.ask .peek).1 = .read (.error e) →
    (r.ask .peek).2.pending = none ∧
      ∀ qs e', .read (.error e') ∉ (serve ask (r.ask .peek).2 qs).1
  unread_iff : ∀ t, (r.ask (.unread t)).1 = .taken ↔ r.pending = none
  /-- A token that is refused changes nothing. -/
  unread_of_some : ∀ t, r.pending ≠ none → (r.ask (.unread t)).2 = r

theorem follows_supply (r : Reader) : r.Follows r.supply where
  pending_eq := rfl
  next_of_some t h := by
    simp only [ask, next, h]
    rfl
  next_of_none h := by
    have hask := r.supply_ask .next
    rw [Supply.ask_next_of_none h] at hask
    exact (Prod.ext_iff.1 hask).1.symm
  peek_eq := by
    have hpeek := r.supply.ask_peek_eq_next
    rwa [supply_ask, supply_ask] at hpeek
  peeks n := Supply.serve_peeks_left (Lexer.orderly_results none _) n
  peek_error e h := by
    have hask := r.supply_ask .peek
    have herror : (r.supply.ask .peek).1 = .read (.error e) := by rw [hask, h]
    obtain ⟨hpending, hleft⟩ :=
      Supply.ask_peek_error (Lexer.orderly_results none _) herror
    rw [hask] at hpending hleft
    refine ⟨hpending, fun qs e' => ?_⟩
    have hnone := (Supply.read_error_notMem_of_nil hleft e' qs).1
    rwa [serve_view supply supply_ask] at hnone
  unread_iff t := by
    cases h : r.pending <;> simp [ask, unread, h, Answer.ofUnread]
  unread_of_some t h := by
    obtain ⟨p, hp⟩ := Option.ne_none_iff_exists'.1 h
    simp only [ask, unread, hp]
    rfl

end Reader

-- ---------------------------------------------------------------------------
-- The supply of a source
-- ---------------------------------------------------------------------------

/-- The supply of what is read from a source: its tokens, perhaps a comment that is not
    closed, and then its end. -/
structure Supply.Of (path source : String) (s : Supply) : Prop where
  orderly : Orderly s.left
  nthRead : ∀ n, NthRead (Text.lexemes path source.toList) (.behind path source.toList) n (s.get n)
  finish_eq : s.finish = .behind path source.toList
  pending_eq : s.pending = none

theorem Orderly.ne_endOfInput {rs : List (Except SyntaxError Token)} (h : Orderly rs)
    {r : Except SyntaxError Token} (hr : r ∈ rs) (finish : Location) :
    r ≠ .ok ⟨finish, .endOfInput⟩ := by
  rintro rfl
  induction h with
  | nil => cases hr
  | unclosed =>
    cases hr with
    | tail _ hr => cases hr
  | cons ht _ ih =>
    cases hr with
    | head => cases ht
    | tail _ hr => exact ih hr

/-- A source has one supply. -/
theorem Supply.Of.unique {path source : String} {s s' : Supply} (h : s.Of path source)
    (h' : s'.Of path source) : s = s' := by
  have hget (n : Nat) : s.get n = s'.get n :=
    (Lexer.read_of_nthRead (h.nthRead n)).symm.trans (Lexer.read_of_nthRead (h'.nthRead n))
  obtain ⟨left, finish, pending⟩ := s
  obtain ⟨left', finish', pending'⟩ := s'
  obtain rfl : finish = finish' := h.finish_eq.trans h'.finish_eq.symm
  obtain rfl : pending = pending' := h.pending_eq.trans h'.pending_eq.symm
  suffices hleft : left = left' by rw [hleft]
  refine List.ext_getElem? fun n => ?_
  -- the end of the text is in neither, so one does not end before the other
  have hn : left[n]?.getD (.ok ⟨finish, .endOfInput⟩) =
      left'[n]?.getD (.ok ⟨finish, .endOfInput⟩) := hget n
  cases hr : left[n]? with
  | none =>
    cases hr' : left'[n]? with
    | none => rfl
    | some r' =>
      rw [hr, hr'] at hn
      exact absurd hn.symm (h'.orderly.ne_endOfInput (List.mem_of_getElem? hr') finish)
  | some r =>
    cases hr' : left'[n]? with
    | none =>
      rw [hr, hr'] at hn
      exact absurd hn (h.orderly.ne_endOfInput (List.mem_of_getElem? hr) finish)
    | some r' =>
      rw [hr, hr'] at hn
      exact congrArg some hn

/-- The supply of a new reader is that of its source. -/
theorem Reader.supply_ofSource (path source : String) :
    (ofSource path source).supply.Of path source := by
  have hcursor : (ofSource path source).buffer.cursor = .ofSource path source := rfl
  have hlexer : (ofSource path source).lexer =
      { lexemes := Text.lexemes path source.toList, finish := .behind path source.toList } := by
    rw [lexer, Buffer.lexemes, Buffer.finish, hcursor, Cursor.lexemes_ofSource]
    rfl
  refine ⟨Lexer.orderly_results none _, fun n => ?_, ?_, rfl⟩
  · obtain ⟨r, hr⟩ := Lexer.exists_nthRead (Text.lexemes path source.toList)
      (.behind path source.toList) n
    rw [supply, ← Lexer.read_eq_get n rfl, hlexer, Lexer.read_of_nthRead hr]
    exact hr
  · rw [supply, hlexer]
    rfl

/-- Whatever is asked of a reader, in any order, it answers from the one supply of its
    text, and hands over the results of that supply one by one. -/
theorem Reader.answers_from_one_supply (path source : String) :
    ∃ s : Supply, s.Of path source ∧ (∀ s' : Supply, s'.Of path source → s' = s) ∧
      ∀ qs : List Query,
        (serve Reader.ask (.ofSource path source) qs).1 = (serve Supply.ask s qs).1 ∧
        (serve Lexer.ask (.ofSource path source) qs).1 = (serve Supply.ask s qs).1 ∧
        (serve Reader.ask (.ofSource path source) qs).2.Follows (serve Supply.ask s qs).2 ∧
        ∀ n r, (handedOver false
            (qs.zip (serve Reader.ask (.ofSource path source) qs).1))[n]? = some r →
          r = s.get n := by
  have hof := supply_ofSource path source
  refine ⟨(ofSource path source).supply, hof, fun s' hs' => hs'.unique hof, fun qs => ?_⟩
  have hreader := serve_view supply supply_ask (ofSource path source) qs
  have hlexer := serve_view Lexer.supply Lexer.supply_ask (Lexer.ofSource path source) qs
  have hanswers := (Prod.ext_iff.1 hreader).1
  refine ⟨hanswers.symm, (Prod.ext_iff.1 hlexer).1.symm, ?_, fun n r hr => ?_⟩
  · rw [hreader]
    exact follows_supply _
  · rw [← hanswers] at hr
    exact Supply.Owes.getElem?_handedOver (.left hof.pending_eq fun _ => rfl) qs hr

end Forth
