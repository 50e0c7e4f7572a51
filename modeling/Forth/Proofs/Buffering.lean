-- SUMMARY: Buffers in use: whatever is asked of a buffer, in any order, no character is lost and the location is right.
import Forth.Proofs.Lookahead

/-!
# Buffers in use

A buffer can be asked to look at a character, to consume one, and to read a lexeme, in
any order, and all three share the one character that it may hold. What was consumed,
the character that is held and the rest are the source text at all times, and the
location is counted from what was consumed alone.
-/

namespace Forth

namespace Buffer

-- ---------------------------------------------------------------------------
-- Uses
-- ---------------------------------------------------------------------------

inductive Use where
  | peek
  | next
  | lexeme

/-- The characters that a use consumes, in order. -/
def consumedBy (b : Buffer) : Use → List Char
  | .peek => []
  | .next => b.next.1.toList
  | .lexeme =>
    let (blanks, b) := b.takeWhile Text.isBlank
    blanks ++ (b.takeWhile (!Text.isBlank ·)).1

def after (b : Buffer) : Use → Buffer
  | .peek => b.peek.2
  | .next => b.next.2
  | .lexeme => b.lexeme.2

/-- The characters that uses one after the other consume, and the buffer behind them. -/
def useAll : Buffer → List Use → List Char × Buffer
  | b, [] => ([], b)
  | b, u :: us =>
    let (cs, b') := (b.after u).useAll us
    (b.consumedBy u ++ cs, b')

/-- The character that is held, if there is one, and the rest. -/
def unread (b : Buffer) : List Char :=
  b.current.toList ++ b.chars

/-- Looking at a character changes nothing for the next use. -/
theorem next_peek (b : Buffer) : b.peek.2.next = b.next ∧ b.peek.1 = b.next.1 := by
  obtain ⟨chars, location, current⟩ := b
  cases current with
  | some c => exact ⟨rfl, rfl⟩
  | none => cases chars <;> exact ⟨rfl, rfl⟩

end Buffer

-- ---------------------------------------------------------------------------
-- Runs
-- ---------------------------------------------------------------------------

namespace Text

/-- The characters are blanks, then a word, and then a rest. Blanks and word are as long as
    they can be. -/
structure Parts (cs blanks word rest : List Char) : Prop where
  cs_eq : cs = blanks ++ word ++ rest
  blank : ∀ c ∈ blanks, isBlank c = true
  visible : ∀ c ∈ word, isBlank c = false
  /-- The word can not be prolonged. -/
  ends : ∀ c ∈ rest.head?, isBlank c = true
  /-- The blanks can not be prolonged: a word follows, or nothing at all. -/
  starts : word = [] → rest = []

/-- All characters are blanks, a word and a rest. -/
theorem parts (cs : List Char) :
    Parts cs (cs.takeWhile isBlank) ((cs.dropWhile isBlank).takeWhile (!isBlank ·))
      ((cs.dropWhile isBlank).dropWhile (!isBlank ·)) where
  cs_eq := by
    rw [List.append_assoc, List.takeWhile_append_dropWhile, List.takeWhile_append_dropWhile]
  blank := List.all_eq_true.1 List.all_takeWhile
  visible := by
    intro c hc
    simpa using List.all_eq_true.1 List.all_takeWhile c hc
  ends := by
    intro c hc
    simpa [Option.mem_def.1 hc] using blank_behind_word (cs.dropWhile isBlank)
  starts := by
    intro hword
    have hhead := List.head?_dropWhile_not isBlank cs
    cases hrest : cs.dropWhile isBlank with
    | nil => rfl
    | cons c rest =>
      rw [hrest] at hhead hword
      simp_all

/-- The word is empty if there are only blanks. -/
theorem Parts.word_eq_nil_iff {cs blanks word rest : List Char} (h : Parts cs blanks word rest) :
    word = [] ↔ ∀ c ∈ cs, isBlank c = true := by
  constructor
  · intro hword c hc
    rw [h.cs_eq, hword, h.starts hword] at hc
    exact h.blank c (by simpa using hc)
  · intro hall
    refine List.eq_nil_iff_forall_not_mem.2 fun c hc => ?_
    have hblank := hall c (by simp [h.cs_eq, hc])
    rw [h.visible c hc] at hblank
    cases hblank

end Text

namespace Cursor

/-- A lexeme is a word behind blanks, and is read together with them. -/
theorem lexeme_eq (c : Cursor) :
    let blanks := c.rest.takeWhile Text.isBlank
    let word := (c.rest.dropWhile Text.isBlank).takeWhile (!Text.isBlank ·)
    let rest := (c.rest.dropWhile Text.isBlank).dropWhile (!Text.isBlank ·)
    c.lexeme =
      (if word = [] then none else some ⟨c.location.afterAll blanks, String.ofList word⟩,
        ⟨rest, c.location.afterAll (blanks ++ word)⟩) := by
  dsimp only
  rcases hlexeme : c.lexeme with ⟨_ | x, c'⟩
  · have hskip : c' = c.skip Text.isBlank := by
      unfold lexeme at hlexeme
      dsimp only at hlexeme
      split at hlexeme <;> cases hlexeme
      rfl
    obtain ⟨hrest, -⟩ := of_lexeme_none hlexeme
    rw [hskip, skip, hrest, List.takeWhile_nil, List.append_nil]
    rfl
  · obtain ⟨hword, rfl, rfl⟩ := of_lexeme_some hlexeme
    rw [if_neg hword, Location.afterAll_append]

end Cursor

-- ---------------------------------------------------------------------------
-- What a use does
-- ---------------------------------------------------------------------------

namespace Buffer

variable {path : String} {source consumed : List Char} {b : Buffer}

/-- The characters `consumed` of the source text were consumed, and all others are left. -/
structure Stands (path : String) (source consumed : List Char) (b : Buffer) : Prop where
  text : consumed ++ b.unread = source
  location : b.location = .behind path consumed

/-- A new buffer stands at the start of its source. -/
theorem stands_ofSource (path source : String) :
    Stands path source.toList [] (ofSource path source) :=
  ⟨rfl, rfl⟩

/-- A lexeme consumes the blanks in front of it and the word. -/
theorem consumedBy_lexeme (b : Buffer) :
    b.consumedBy .lexeme = b.unread.takeWhile Text.isBlank ++
      (b.unread.dropWhile Text.isBlank).takeWhile (!Text.isBlank ·) := by
  obtain ⟨hblanks, hrest⟩ := b.takeWhile_cursor Text.isBlank
  obtain ⟨hword, -⟩ := (b.takeWhile Text.isBlank).2.takeWhile_cursor (!Text.isBlank ·)
  rw [hrest] at hword
  exact congr (congrArg _ hblanks) hword

/-- A use takes the first characters that are left, and moves the location behind them. -/
theorem cursor_after (b : Buffer) (u : Use) :
    b.consumedBy u ++ (b.after u).unread = b.unread ∧
      (b.after u).location = b.location.afterAll (b.consumedBy u) := by
  cases u with
  | peek =>
    obtain ⟨-, hcursor⟩ := b.peek_cursor
    exact ⟨congrArg Cursor.rest hcursor, congrArg Cursor.location hcursor⟩
  | next =>
    obtain ⟨chars, location, current⟩ := b
    cases current with
    | some c => exact ⟨rfl, rfl⟩
    | none => cases chars <;> exact ⟨rfl, rfl⟩
  | lexeme =>
    obtain ⟨-, hcursor⟩ := b.lexeme_cursor
    rw [Cursor.lexeme_eq] at hcursor
    have hrest : (b.after .lexeme).unread = _ := congrArg Cursor.rest hcursor
    have hlocation : (b.after .lexeme).location = _ := congrArg Cursor.location hcursor
    rw [consumedBy_lexeme, hrest, hlocation]
    exact ⟨(Text.parts b.unread).cs_eq.symm, rfl⟩

/-- A use moves a buffer behind the characters that it consumes. -/
theorem Stands.after (h : b.Stands path source consumed) (u : Use) :
    (b.after u).Stands path source (consumed ++ b.consumedBy u) := by
  obtain ⟨hrest, hlocation⟩ := b.cursor_after u
  constructor
  · rw [List.append_assoc, hrest, h.text]
  · rw [hlocation, h.location, Location.afterAll_behind]

/-- Uses one after the other move a buffer behind all that they consume. -/
theorem Stands.useAll (h : b.Stands path source consumed) (us : List Use) :
    (b.useAll us).2.Stands path source (consumed ++ (b.useAll us).1) := by
  induction us generalizing b consumed with
  | nil => simpa [Buffer.useAll] using h
  | cons u us ih =>
    have hrest := ih (h.after u)
    rwa [List.append_assoc] at hrest

/-- What a buffer answers when the characters `consumed` of the source text were consumed. -/
structure Answers (path : String) (source consumed : List Char) (b : Buffer) : Prop
    extends Stands path source consumed b where
  /-- Looking at a character does not move the location. -/
  peek_location : b.peek.2.location = b.location
  /-- The character that is looked at is the one that is consumed next. -/
  peek_next : b.peek.1 = b.peek.2.next.1 ∧ b.peek.2.next = b.next
  next_eq : b.next.1 = b.unread.head?
  /-- A lexeme is read together with the blanks in front of it, and has the location of its
      first character. -/
  lexeme_eq : ∃ blanks word rest, Text.Parts b.unread blanks word rest ∧
    b.consumedBy .lexeme = blanks ++ word ∧ b.lexeme.2.unread = rest ∧
    b.lexeme.1 =
      if word = [] then none else some ⟨.behind path (consumed ++ blanks), String.ofList word⟩
  /-- There is none if only blanks are left, and then they are all consumed. -/
  lexeme_none_iff : b.lexeme.1 = none ↔ ∀ c ∈ b.unread, Text.isBlank c = true
  lexeme_none : b.lexeme.1 = none →
    consumed ++ b.consumedBy .lexeme = source ∧ b.lexeme.2.unread = []

/-- A buffer answers by where it stands in its source. -/
theorem Stands.answers (h : b.Stands path source consumed) : b.Answers path source consumed := by
  have hparts := Text.parts b.unread
  obtain ⟨hanswer, hcursor⟩ := b.lexeme_cursor
  rw [Cursor.lexeme_eq] at hanswer hcursor
  have hrest : b.lexeme.2.unread = _ := congrArg Cursor.rest hcursor
  have hplace : b.cursor.location = .behind path consumed := h.location
  dsimp only at hanswer
  rw [hplace, Location.afterAll_behind] at hanswer
  have hnone : b.lexeme.1 = none ↔ ∀ c ∈ b.unread, Text.isBlank c = true := by
    rw [hanswer, ← hparts.word_eq_nil_iff]
    split
    · next hword => exact iff_of_true rfl hword
    · next hword => exact iff_of_false (Option.some_ne_none _) hword
  refine ⟨h, (b.cursor_after .peek).2, ?_, ?_, ?_, hnone, fun hlexeme => ?_⟩
  · exact ⟨b.next_peek.2.trans (congrArg Prod.fst b.next_peek.1).symm, b.next_peek.1⟩
  · obtain ⟨chars, location, current⟩ := b
    cases current with
    | some c => rfl
    | none => cases chars <;> rfl
  · exact ⟨_, _, _, hparts, b.consumedBy_lexeme, hrest, hanswer⟩
  · have hempty : b.lexeme.2.unread = [] :=
      hrest.trans (hparts.starts (hparts.word_eq_nil_iff.2 (hnone.1 hlexeme)))
    have htext := (h.after .lexeme).text
    rw [show (b.after .lexeme).unread = [] from hempty, List.append_nil] at htext
    exact ⟨htext, hempty⟩

/-- However looking at characters, consuming them and reading lexemes follow each other, no
    character of the source is lost or read twice, and each answer has its right place. -/
theorem answers_behind_uses (path source : String) (uses : List Use) :
    ((ofSource path source).useAll uses).2.Answers path source.toList
      ((ofSource path source).useAll uses).1 :=
  ((stands_ofSource path source).useAll uses).answers

/-- The line feed that a lexeme has looked at is consumed by the next use. -/
example :
    let (consumed, b) := (ofSource "a" " b\nc").useAll [.peek, .lexeme, .peek, .next]
    consumed = [' ', 'b', '\n'] ∧ b = { chars := ['c'], location := ⟨"a", 2, 1⟩ } := by
  decide +kernel

end Buffer

end Forth
