-- SUMMARY: The compiler: compilations from their first token to their end, and the words of a source text.
import Forth.Compiler.Work

/-!
# The compiler

A compilation ends at the end of the input, or in front of one of the keywords it
was told to stop at, or at the first fault. What it leaves behind is the state
for the next one: the finished words stay, and a definition that failed stays
open. Every token that does not end the compilation makes what is left to read
smaller, so every compilation ends.
-/

namespace Forth

namespace Work

/-! ## What is left to read -/

/-- The number of lexemes and pending tokens left to read. -/
def remaining (w : Work) : Nat :=
  w.compiler.lexer.remaining

theorem read_eq_more {α : Type} {w w' : Work} {f : EStateM SyntaxError Lexer α}
    {k : α → Work → Progress} (h : w.read f k = .more w') :
    ∃ a lexer, f w.compiler.lexer = .ok a lexer ∧
      k a { w with compiler := { w.compiler with lexer } } = .more w' := by
  unfold read at h
  split at h
  · next a lexer hf => exact ⟨a, lexer, hf, h⟩
  · cases h

theorem remaining_identifier_le {w w' : Work} {name : String}
    (h : w.identifier name = .more w') : w'.remaining ≤ w.remaining := by
  unfold identifier emit at h
  split at h
  · cases h; exact Nat.le_refl _
  · obtain ⟨t, l, hl, h⟩ := read_eq_more h
    have hle := Lexer.remaining_peek_le hl
    dsimp only at h
    split at h
    · obtain ⟨_, l', hl', h⟩ := read_eq_more h
      cases h
      exact Nat.le_trans (Lexer.remaining_next_le hl') hle
    · split at h
      · obtain ⟨_, l', hl', h⟩ := read_eq_more h
        cases h
        exact Nat.le_trans (Lexer.remaining_next_le hl') hle
      · cases h; exact hle

theorem remaining_keyword_le {w w' : Work} {l : Location} {k : Keyword}
    (h : w.keyword l k = .more w') : w'.remaining ≤ w.remaining := by
  unfold keyword openDefinition openConditional fail at h
  split at h
  · split at h
    · cases h
    · obtain ⟨t, lexer, hl, h⟩ := read_eq_more h
      dsimp only at h
      split at h
      · cases h; exact Lexer.remaining_next_le hl
      · cases h
  · split at h
    · cases h; exact Nat.le_refl _
    · cases h
  all_goals cases h

theorem remaining_closeConditional_le {w w' : Work} {l : Location} {frames : List Frame}
    {outer : Array Op} {code : Option (Array Op)}
    (h : w.closeConditional l frames outer code = .more w') : w'.remaining ≤ w.remaining := by
  cases code with
  | none => cases h
  | some code => cases h; exact Nat.le_refl _

theorem remaining_stop_le {w w' : Work} {t : Token} {k : Keyword}
    (h : w.stop t k = .more w') : w'.remaining ≤ w.remaining := by
  unfold stop at h
  split at h
  · obtain ⟨_, _, _, h⟩ := read_eq_more h
    cases h
  · cases h; exact Nat.le_refl _
  · split at h
    · cases h; exact Nat.le_refl _
    · exact remaining_closeConditional_le h
  · exact remaining_closeConditional_le h

theorem endOfInput_ne_more (w w' : Work) : w.endOfInput ≠ .more w' := by
  unfold endOfInput fail
  split <;> simp

/-- The end of the input ends a compilation, and no other token adds to what is left to
    read. -/
theorem remaining_token_le {w w' : Work} {t : Token} (h : w.token t = .more w') :
    t.isEnd = false ∧ w'.remaining ≤ w.remaining := by
  unfold token emit at h
  split at h
  · next hp => cases h; exact ⟨by simp [Token.isEnd, hp], Nat.le_refl _⟩
  · next hp => cases h; exact ⟨by simp [Token.isEnd, hp], Nat.le_refl _⟩
  · next hp => exact ⟨by simp [Token.isEnd, hp], remaining_identifier_le h⟩
  · next hp =>
    refine ⟨by simp [Token.isEnd, hp], ?_⟩
    split at h
    · exact remaining_stop_le h
    · exact remaining_keyword_le h
  · exact absurd h (endOfInput_ne_more _ _)

/-- Every token that does not end a compilation makes what is left smaller. -/
theorem remaining_step_lt {w w' : Work} (h : w.step = .more w') : w'.remaining < w.remaining := by
  obtain ⟨t, l, hl, h⟩ := read_eq_more h
  obtain ⟨ht, hle⟩ := remaining_token_le h
  exact Nat.lt_of_le_of_lt hle (Lexer.remaining_next_lt hl ht)

/-! ## Compilations -/

/-- Goes on until the compilation ends. -/
def run (w : Work) : Compiled :=
  match h : w.step with
  | .ended r => r
  | .more w' =>
    have := remaining_step_lt h
    w'.run
termination_by w.remaining

theorem run_of_ended {w : Work} {r : Compiled} (h : w.step = .ended r) : w.run = r := by
  rw [run]
  split <;> simp_all

theorem run_of_more {w w' : Work} (h : w.step = .more w') : w.run = w'.run := by
  rw [run]
  split <;> simp_all

end Work

/-! ## Programs -/

namespace Compiler

/-- Compiles up to the end of the input, or up to one of the keywords `stops`
    outside of all constructs. -/
def compile (stops : List Keyword) : EStateM SyntaxError Compiler (List Op) := fun c =>
  Work.run { compiler := c, stops }

/-- Compiles the rest of the text. The result is the finished words and then the
    code outside of all definitions as a word of its own. -/
def program : EStateM SyntaxError Compiler (List Word) := do
  let body ← compile []
  let c ← get
  return c.words.toList ++ [.ofBody Word.topLevel c.start body]

end Compiler

def wordsOfSource (path source : String) : Except SyntaxError (List Word) :=
  match Compiler.program (.ofSource path source) with
  | .ok words _ => .ok words
  | .error e _ => .error e

end Forth
