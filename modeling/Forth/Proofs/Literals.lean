-- SUMMARY: Literals: the texts that denote integers and strings, and that no other strings occur in a session.
import Forth.Proofs.Provenance
import Forth.Proofs.StraightLine
import Mathlib.Data.List.TakeWhile

/-!
# Literals

An integer is read back from the numeral that is printed for it, and a string from its
text between quotes, as long as the text has no blank. The one text that can not be
written so is the escape of the line feed, which denotes that instead. There are no other
string literals, so there are no other strings: neither on the stack nor in the output.
-/

namespace Forth

-- ---------------------------------------------------------------------------
-- String literals
-- ---------------------------------------------------------------------------

namespace Text

variable {s t : String}

/-- A text that denotes itself between quotes. -/
structure Quotable (s : String) : Prop where
  visible : ∀ c ∈ s.toList, isBlank c = false
  ne_escape : s ≠ "\\n"

/-- A string that some literal denotes. -/
def Denotable (s : String) : Prop :=
  Quotable s ∨ s = "\n"

def inQuotes (s : String) : String :=
  "\"" ++ s ++ "\""

theorem toList_inQuotes (s : String) : (inQuotes s).toList = '"' :: s.toList ++ ['"'] := by
  simp [inQuotes]

/-- A text that denotes itself between quotes is one lexeme with them. -/
theorem Quotable.solid_inQuotes (h : Quotable s) : Solid (inQuotes s) where
  ne_nil := by
    rw [toList_inQuotes]
    exact List.cons_ne_nil _ _
  visible := by
    intro c hc
    rw [toList_inQuotes] at hc
    rcases List.mem_append.1 hc with hc | hc
    · rcases List.mem_cons.1 hc with rfl | hc
      · rfl
      · exact h.visible c hc
    · obtain rfl := List.mem_singleton.1 hc
      rfl

/-- A numeral starts with no quote. -/
theorem Numeral.ne_quote {cs rest : List Char} {v : Int} (h : Numeral cs v) :
    cs ≠ '"' :: rest := by
  rintro rfl
  cases h with
  | plain hdigits =>
    have hquote := hdigits.2 '"' List.mem_cons_self
    cases hquote

theorem Quotable.literal_inQuotes (h : Quotable s) : Literal (inQuotes s).toList s := by
  have hne : s.toList ≠ ['\\', 'n'] := by
    intro heq
    apply h.ne_escape
    rw [← String.ofList_toList (s := s), heq]
  have hliteral := Literal.interior hne
  rwa [String.ofList_toList, ← toList_inQuotes] at hliteral

/-- The string of a literal without blanks. -/
theorem Literal.denotable {cs : List Char} (h : Literal cs t) (hcs : ∀ c ∈ cs, isBlank c = false) :
    Denotable t := by
  cases h with
  | newline => exact .inr rfl
  | @interior cs hne =>
    refine .inl ⟨fun c hc => hcs c ?_, fun heq => hne ?_⟩
    · rw [String.toList_ofList] at hc
      simp [hc]
    · rw [← String.toList_ofList (l := cs), heq]
      rfl

end Text

namespace Token.Payload

variable {s t : String}

/-- A text that denotes itself between quotes is a string literal with them. -/
theorem ofText_inQuotes (h : Text.Quotable s) : ofText (Text.inQuotes s) = .string s := by
  refine ofText_eq_iff_denotes.2 (.string (fun n hn => ?_) h.literal_inQuotes)
  exact hn.ne_quote (Text.toList_inQuotes s)

/-- A string that a lexeme denotes is denotable. -/
theorem denotable_of_ofText (h : ofText s = .string t) (hs : ∀ c ∈ s.toList, Text.isBlank c = false) :
    Text.Denotable t := by
  cases ofText_eq_iff_denotes.1 h with
  | string _ hliteral => exact hliteral.denotable hs

end Token.Payload

theorem Simple.ofText?_inQuotes {s : String} (h : Text.Quotable s) :
    ofText? (Text.inQuotes s) = some (.push (.str s)) := by
  rw [ofText?, Token.Payload.ofText_inQuotes h]

-- ---------------------------------------------------------------------------
-- Single tokens
-- ---------------------------------------------------------------------------

namespace Lexer

/-- The whole text is one token: it starts where the text does, and the end of the text
    follows. -/
def ReadsSingle (path source : String) (p : Token.Payload) : Prop :=
  (ofSource path source).read 0 = .ok ⟨.start path, p⟩ ∧
    ∀ n, (ofSource path source).read (n + 1) = .ok ⟨.behind path source.toList, .endOfInput⟩

/-- A text without blanks is one lexeme. -/
theorem lexemes_solid {s : String} (hs : Text.Solid s) (path : String) :
    Text.lexemes path s.toList = [⟨.start path, s⟩] := by
  obtain ⟨c, cs, hcs⟩ := List.exists_cons_of_ne_nil hs.ne_nil
  have hfirst : Text.isBlank c = false := hs.visible c (hcs ▸ List.mem_cons_self)
  have hblanks : s.toList.takeWhile Text.isBlank = [] := by simp [hcs, hfirst]
  have hrest : s.toList.dropWhile Text.isBlank = s.toList := by simp [hcs, hfirst]
  have hword : s.toList.takeWhile (!Text.isBlank ·) = s.toList :=
    List.takeWhile_eq_self_iff.2 fun d hd => by simp [hs.visible d hd]
  have hend : s.toList.dropWhile (!Text.isBlank ·) = [] :=
    List.dropWhile_eq_nil_iff.2 fun d hd => by simp [hs.visible d hd]
  have htext : String.ofList (c :: cs) = s := by rw [← hcs, String.ofList_toList]
  have hlexeme : (Cursor.ofSource path s).lexeme =
      (some ⟨.start path, s⟩, ⟨[], (Location.start path).afterAll s.toList⟩) := by
    simp only [Cursor.lexeme, Cursor.skip, Cursor.ofSource, hblanks, hrest, hword, hend,
      Location.afterAll_nil]
    simp only [hcs, htext]
  have hnone : (⟨[], (Location.start path).afterAll s.toList⟩ : Cursor).lexeme =
      (none, ⟨[], (Location.start path).afterAll s.toList⟩) := rfl
  have hlexemes := Cursor.lexemes_ofSource path s
  rw [Cursor.lexemes_of_some hlexeme, Cursor.lexemes_of_none hnone] at hlexemes
  exact (Prod.ext_iff.1 hlexemes).1.symm

/-- A text without blanks that stands for a statement is read as one token. -/
theorem readsSingle_solid {s : String} {stmt : Simple} (hs : Text.Solid s)
    (hstmt : Simple.ofText? s = some stmt) (path : String) : ReadsSingle path s (.ofText s) := by
  have hlexer : ofSource path s =
      { lexemes := [⟨.start path, s⟩], finish := .behind path s.toList } := by
    rw [ofSource, Cursor.lexemes_ofSource, lexemes_solid hs]
  have honce := @readOnce_cons ⟨.start path, s⟩ (.behind path s.toList)
    (Simple.ofText?_ne_open hstmt) []
  rw [ReadsSingle, hlexer]
  refine ⟨?_, fun n => ?_⟩
  · rw [read, honce]
    rfl
  · rw [read, honce, read_nil]

/-- An integer is read back as one token. -/
theorem readsSingle_showInt64 (path : String) (n : Int64) :
    ReadsSingle path (Text.showInt64 n) (.integer n) := by
  rw [← Token.Payload.ofText_showInt64]
  exact readsSingle_solid (Text.solid_showInt64 n) (Simple.ofText?_showInt64 n) path

/-- A string between quotes is read back as one token. -/
theorem readsSingle_inQuotes {s : String} (h : Text.Quotable s) (path : String) :
    ReadsSingle path (Text.inQuotes s) (.string s) := by
  rw [← Token.Payload.ofText_inQuotes h]
  exact readsSingle_solid h.solid_inQuotes (Simple.ofText?_inQuotes h) path

/-- A string that is read is one that some literal denotes. -/
theorem denotable_of_read {path source t : String} {location : Location} {n : Nat}
    (h : (ofSource path source).read n = .ok ⟨location, .string t⟩) : Text.Denotable t := by
  have hlexemes := Cursor.lexemes_ofSource path source
  obtain ⟨r, hr⟩ := exists_nthRead (Text.lexemes path source.toList)
    (.behind path source.toList) n
  rw [ofSource, hlexemes, read_of_nthRead hr] at h
  subst h
  cases hr with
  | @token x _ hget hdenotes =>
    have hx : x ∈ (Cursor.ofSource path source).lexemes.1 := by
      rw [hlexemes]
      exact mem_of_mem_outsideComments (List.mem_of_getElem? hget)
    exact Token.Payload.denotable_of_ofText (Token.ofText_eq_iff_denotes.2 hdenotes)
      (Cursor.isBlank_of_mem_lexemes hx)

end Lexer

-- ---------------------------------------------------------------------------
-- Sessions
-- ---------------------------------------------------------------------------

/-- Every literal of a text is an integer or a string that some literal denotes. -/
theorem coversLiterals_denotable : CoversLiterals fun v => ∀ s, v = .str s → Text.Denotable s where
  int n s h := by cases h
  literal path source t ht v hv s hs := by
    subst hs
    obtain ⟨x, hx, rfl⟩ := List.mem_map.1 ht
    have hpayload : Token.Payload.ofText x.text = .string s := by
      unfold Token.value? at hv
      split at hv
      · cases hv
      · rename_i hpayload
        cases hv
        exact hpayload
      · cases hv
    exact Token.Payload.denotable_of_ofText hpayload
      (Cursor.isBlank_of_mem_lexemes (mem_of_mem_outsideComments hx))

/-- A string literal and the word that prints, on top of any values. -/
theorem Machine.load_inQuotes {m : Machine} {s : String} (h : Text.Quotable s)
    (hcalls : m.calls = [])
    (hcode : m.image.dictionary.nextAddress = m.image.code.size)
    (hroom : m.image.constants.size + 1 ≤ Instruction.argumentLimit + 1)
    (hlimit : m.state.output.limit = none) (path : String) :
    ∃ m', m.load path (Text.inQuotes s ++ " .") = .ok m' ∧
      ∃ n m'', m'.runFor n = (.halted, m'') ∧
        m''.state = { m.state with output := ⟨m.state.output.written ++ s.toUTF8, none⟩ } := by
  obtain ⟨p, hp, hprints⟩ := exists_print
  have hspells : Spells path (Text.inQuotes s ++ " .")
      (.ofSimples [.push (.str s), .primitive p]) := by
    have hsource : (Text.inQuotes s ++ " .").toList =
        (Text.inQuotes s).toList ++ ' ' :: ['.'] := by
      simp
    apply spells_ofSimples
    rw [hsource, Text.runs_solid_append h.solid_inQuotes, Text.runs_print]
    simp only [List.map_cons, List.map_nil, Simple.ofText?_inQuotes h, hp]
  obtain ⟨m', hload, hends⟩ := exists_load_ofSimples hspells hcode hroom hcalls
  have hwrite := @Action.print_unlimited m.state (.str s) Value.noConfusion hlimit
  rw [← hprints] at hwrite
  exact ⟨m', hload, hends _ (.simple rfl (.simple hwrite .done))⟩

/-- Integers and strings are read back from the texts that denote them, and no others
    occur: a string that is read, stands on the stack or is printed is a text without
    blanks other than the escape of the line feed, or it is the line feed. -/
theorem literals_exact :
    (∀ (path : String) (n : Int64),
      Lexer.ReadsSingle path (Value.int n).render (.integer n)) ∧
    (∀ (path s : String), Text.Quotable s →
      Lexer.ReadsSingle path (Text.inQuotes s) (.string s) ∧
      ∀ m : Machine, m.calls = [] → m.image.dictionary.nextAddress = m.image.code.size →
        m.image.constants.size + 1 ≤ Instruction.argumentLimit + 1 →
        m.state.output.limit = none →
        ∃ m', m.load path (Text.inQuotes s ++ " .") = .ok m' ∧
          ∃ n m'', m'.runFor n = (.halted, m'') ∧
            m''.state = { m.state with output := ⟨m.state.output.written ++ s.toUTF8, none⟩ }) ∧
    (∀ (path source t : String) (location : Location) (n : Nat),
      (Lexer.ofSource path source).read n = .ok ⟨location, .string t⟩ →
      Text.Quotable t ∨ t = "\n") ∧
    (∀ (log : List Exchange) (m : Machine), Transcript {} log m → ∀ (output : Sink) (n : Nat),
      (∀ t, .str t ∈ ((m.writingTo output).runFor n).2.state.stack →
        Text.Quotable t ∨ t = "\n") ∧
      (∀ t, .str t ∈ (m.writingTo output).printedIn n → Text.Quotable t ∨ t = "\n") ∧
      ((m.writingTo output).runFor n).2.state.output =
        ((m.writingTo output).printedIn n).foldl
          (fun output v => output.write v.render.toUTF8) output) := by
  refine ⟨Lexer.readsSingle_showInt64, fun path s h => ⟨Lexer.readsSingle_inQuotes h path, ?_⟩,
    fun path source t location n => Lexer.denotable_of_read, fun log m h output n => ?_⟩
  · intro m hcalls hcode hroom hlimit
    exact Machine.load_inQuotes h hcalls hcode hroom hlimit path
  · have hcarries := (h.carries coversLiterals_denotable Machine.carries_new).writingTo output
    refine ⟨fun t ht => ?_, fun t ht => ?_, (m.writingTo output).output_runFor n⟩
    · exact (hcarries.runFor coversLiterals_denotable n).state.stack _ ht t rfl
    · exact Machine.all_printedIn coversLiterals_denotable.int hcarries.pushes hcarries.state n _ ht
        t rfl

/-- A text with a quote, a backslash and a character of two bytes, and a session that has
    the line feed on its stack, above a literal that only looks like an escape. -/
theorem literals_exact_of_quotes :
    (Text.Quotable "é\"\\" ∧
      ∃ m', ({} : Machine).load "a" "\"é\"\\\" ." = .ok m' ∧
        ∃ n m'', m'.runFor n = (.halted, m'') ∧
          m''.state.output.written = "é\"\\".toUTF8) ∧
    ∃ log m, Transcript {} log m ∧ m.state.stack = [.str "\n", .str "\\n\\t"] ∧
      ∀ t, .str t ∈ m.state.stack → Text.Quotable t ∨ t = "\n" := by
  obtain ⟨-, hstrings, -, hsessions⟩ := literals_exact
  have hquotable : Text.Quotable "é\"\\" := by
    refine ⟨fun c hc => ?_, by decide⟩
    have hall : "é\"\\".toList.all (!Text.isBlank ·) = true := by decide +kernel
    simpa using List.all_eq_true.1 hall c hc
  have hreplay : (Transcript.ofRequests? 9 {} [.load "b" "\"\\n\\t\" \"\\n\"", .run {}]).map
      (·.2.state.stack) = some [.str "\n", .str "\\n\\t"] := by
    decide +kernel
  obtain ⟨⟨log, m⟩, hlog, hstack⟩ := Option.map_eq_some_iff.1 hreplay
  have htranscript := Transcript.of_ofRequests? hlog
  refine ⟨⟨hquotable, ?_⟩, log, m, htranscript, hstack, (hsessions log m htranscript {} 0).1⟩
  obtain ⟨m', hload, n, m'', hrun, hstate⟩ :=
    (hstrings "a" "é\"\\" hquotable).2 {} rfl rfl (by decide) rfl
  exact ⟨m', hload, n, m'', hrun, by rw [hstate]; rfl⟩

end Forth
