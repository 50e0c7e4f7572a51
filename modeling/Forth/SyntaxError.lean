-- SUMMARY: The faults that a source text can have, where they are reported, and their messages.
import Forth.Token

/-!
# Syntax errors

A source text is refused at its first fault. The location of the error is that
of the lexeme to blame: the one that may not stand there, or the one that opens
what is never closed.
-/

namespace Forth

/-- How many conditionals may enclose one place of a program. -/
def nestingLimit : Nat := 256

/-- What is wrong with a source text. -/
inductive SyntaxFault where
  | unclosedComment
  | alreadyPending (pending refused : Token)
  | nestedDefinition
  | invalidName (token : Token)
  | unfinishedDefinition (name : String)
  | semicolonInConditional
  | semicolonOutside
  | unmatched (keyword : Keyword)
  | unexpected (keyword : Keyword)
  | nestedTooDeep
  | missingThen
  | missingThenAfterElse
  | branchTooLong
  deriving DecidableEq

def SyntaxFault.message : SyntaxFault → String
  | unclosedComment => "No matching ')' for '('."
  | alreadyPending pending refused =>
    s!"Token {pending.render} already pushed back, can not also push back {refused.render}."
  | nestedDefinition => "Can't nest word definitions."
  | invalidName token => s!"'{token.render}' isn't a valid word name."
  | unfinishedDefinition name => s!"End of input during the definition of '{name}'."
  | semicolonInConditional => "Unexpected ';' inside of a conditional."
  | semicolonOutside => "Can't use ';' outside of a word definition."
  | unmatched keyword => s!"Unmatched '{keyword.text}' without an 'if'."
  | unexpected keyword => s!"Unknown token '{keyword.text}'."
  | nestedTooDeep => s!"Conditionals nested more than {nestingLimit} deep."
  | missingThen => "Unterminated 'if', missing 'then'."
  | missingThenAfterElse => "Unterminated 'if ... else', missing 'then'."
  | branchTooLong => "Conditional branch is too long."

/-- A fault and the place to blame. -/
structure SyntaxError where
  location : Location
  fault : SyntaxFault
  deriving DecidableEq

end Forth
