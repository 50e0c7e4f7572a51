-- SUMMARY: Straight-line programs: literals and primitive words in a row, from their text to the end of their run.
import Forth.Proofs.Correctness
import Forth.Proofs.Fields
import Forth.Proofs.Limits
import Forth.Proofs.Places
import Forth.Proofs.Tokenizing

/-!
# Straight-line programs

A text of literals and primitive words alone is loaded by every machine that has room
for its constants, and runs as its statements are carried out one after the other.
-/

namespace Forth

-- ---------------------------------------------------------------------------
-- Phrases
-- ---------------------------------------------------------------------------

namespace Phrase

def ofSimples : List Simple → Phrase
  | [] => .done
  | stmt :: stmts => .simple stmt (ofSimples stmts)

theorem definitions_ofSimples (stmts : List Simple) : (ofSimples stmts).definitions = [] := by
  induction stmts with
  | nil => rfl
  | cons stmt stmts ih => exact ih

theorem code_ofSimples (stmts : List Simple) : (ofSimples stmts).code = stmts.map Simple.op := by
  induction stmts with
  | nil => rfl
  | cons stmt stmts ih => exact congrArg (stmt.op :: ·) ih

theorem depth_ofSimples (stmts : List Simple) : (ofSimples stmts).depth = 0 := by
  induction stmts with
  | nil => rfl
  | cons stmt stmts ih => exact ih

/-- A straight line of statements is one word, of top-level code. -/
theorem words_ofSimples (stmts : List Simple) (start : Location) :
    (ofSimples stmts).words start = [.ofBody Word.topLevel start (stmts.map Simple.op)] := by
  rw [words, definedWords, definitions_ofSimples, code_ofSimples]
  rfl

end Phrase

theorem Simple.Known.fits_op {stmt : Simple} (h : stmt.Known) : stmt.op.Fits := by
  cases stmt with
  | push v | store name | fetch name => simp [op, Op.Fits, Op.push, Op.store, Op.fetch]
  | primitive p =>
    have hall : ∀ p ∈ Primitive.all, p.opcode ≠ .jump ∧ p.opcode ≠ .jumpIfNot := by decide
    simp [op, Op.Fits, hall p h]

theorem Phrase.fits_ofSimples {stmts : List Simple} (h : (ofSimples stmts).Known) :
    (ofSimples stmts).Fits := by
  induction stmts with
  | nil => exact fits_done
  | cons stmt stmts ih => exact (fits_simple ..).2 ⟨h.1.fits_op, ih h.2⟩

-- ---------------------------------------------------------------------------
-- Spelling
-- ---------------------------------------------------------------------------

namespace Text

variable {s : String}

theorem runs_solid (h : Solid s) : runs s.toList = [s] := by
  rw [runs_of_forall h.visible h.ne_nil, String.ofList_toList]

/-- A text without blanks, with a blank behind it, is the first run. -/
theorem runs_solid_append (h : Solid s) (cs : List Char) :
    runs (s.toList ++ ' ' :: cs) = s :: runs cs := by
  rw [runs_append (by decide), runs_solid h]
  rfl

/-- A number is read back from its digits. -/
theorem digits?_toString (n : Nat) : digits? (toString n).toList = some n := by
  have hdigits : (toString n).toList.all Char.isDigit = true :=
    List.all_eq_true.2 fun _ => isDigit_of_mem_toString
  have hvalue : Nat.ofDigitChars 10 (toString n).toList 0 = n := by
    rw [Nat.toString_eq_repr, Nat.toList_repr, Nat.ofDigitChars_ten_toDigits]
  rw [Nat.ofDigitChars_eq_foldl] at hvalue
  rw [digits?, hvalue, hdigits, List.isEmpty_eq_false_iff.2 (solid_toString n).ne_nil]
  rfl

/-- The numeral that is written for an integer is one of it. -/
theorem numeral_showInt64 (n : Int64) : Numeral (showInt64 n).toList n.toInt := by
  rw [toList_showInt64]
  split
  · rename_i hpos
    obtain ⟨hdigits, hvalue⟩ := digits?_eq_some_iff.1 (digits?_toString n.toInt.toNat)
    have hnumeral := Numeral.plain hdigits
    rwa [hvalue, Int.toNat_of_nonneg hpos] at hnumeral
  · rename_i hneg
    obtain ⟨hdigits, hvalue⟩ := digits?_eq_some_iff.1 (digits?_toString (-n.toInt).toNat)
    have hnumeral := Numeral.minus hdigits
    rwa [hvalue, Int.toNat_of_nonneg (by omega), Int.neg_neg] at hnumeral

end Text

/-- The literal or the primitive word that a text stands for. -/
def Simple.ofText? (s : String) : Option Simple :=
  match Token.Payload.ofText s with
  | .integer n => some (.push (.int n))
  | .string t => some (.push (.str t))
  | .identifier name => (Primitive.find? name).map .primitive
  | .keyword _ | .endOfInput => none

/-- An integer is read back from how it is shown. -/
theorem Token.Payload.ofText_showInt64 (n : Int64) : ofText (Text.showInt64 n) = .integer n :=
  ofText_eq_iff_denotes.2 (.integer (Text.numeral_showInt64 n))

theorem Simple.ofText?_showInt64 (n : Int64) :
    ofText? (Text.showInt64 n) = some (.push (.int n)) := by
  rw [ofText?, Token.Payload.ofText_showInt64]

/-- The name of a primitive word stands for it. -/
theorem Simple.ofText?_name : ∀ p ∈ Primitive.all, ofText? p.name = some (.primitive p) := by
  decide +kernel

theorem Primitive.solid_name {p : Primitive} (hp : p ∈ Primitive.all) : Text.Solid p.name := by
  have hall : Primitive.all.all (fun p => !p.name.toList.isEmpty &&
      p.name.toList.all (!Text.isBlank ·)) = true := by
    decide +kernel
  have hname := List.all_eq_true.1 hall p hp
  simp only [Bool.and_eq_true, Bool.not_eq_true', List.isEmpty_eq_false_iff,
    List.all_eq_true] at hname
  exact ⟨hname.1, hname.2⟩

/-- A name that some primitive word has is read as a word of that name. -/
theorem Primitive.exists_of_name {name : String} (h : ∃ p ∈ Primitive.all, p.name = name) :
    Text.Solid name ∧
      ∃ p : Primitive, Simple.ofText? name = some (.primitive p) ∧ p.name = name := by
  obtain ⟨p, hp, rfl⟩ := h
  exact ⟨solid_name hp, p, Simple.ofText?_name p hp, rfl⟩

theorem Simple.ofText?_ne_open {s : String} {stmt : Simple} (h : ofText? s = some stmt) :
    s ≠ "(" := by
  rintro rfl
  have hnone : ofText? "(" = none := by decide +kernel
  cases hnone.symm.trans h

/-- Without an opening of a comment all lexemes are outside of comments. -/
theorem outsideComments_of_forall_ne {xs : List Lexeme} (h : ∀ x ∈ xs, x.text ≠ "(") :
    outsideComments 0 xs = xs ∧ CommentsClosed 0 xs := by
  induction xs with
  | nil => exact ⟨rfl, rfl⟩
  | cons x xs ih =>
    have hx : x.text ≠ "(" := h x List.mem_cons_self
    obtain ⟨hout, hclosed⟩ := ih fun y hy => h y (List.mem_cons_of_mem x hy)
    refine ⟨by rw [outsideComments_cons hx, hout], ?_⟩
    exact (commentsClosed_append_iff (commentsClosed_singleton hx)).2 hclosed

/-- Lexemes that stand for statements one by one spell the straight line of them. -/
theorem derives_ofSimples {xs : List Lexeme} {stmts : List Simple}
    (h : xs.map (fun x => Simple.ofText? x.text) = stmts.map some) :
    Derives false (xs.map Lexeme.token) (.ofSimples stmts) := by
  induction xs generalizing stmts with
  | nil =>
    obtain rfl := List.map_eq_nil_iff.1 h.symm
    exact .done
  | cons x xs ih =>
    obtain ⟨stmt, stmts, rfl, hstmt, hrest⟩ := List.map_eq_cons_iff.1 h.symm
    have hderives := ih hrest.symm
    replace hstmt : some stmt = Simple.ofText? x.text := hstmt
    unfold Simple.ofText? at hstmt
    split at hstmt
    · rename_i n hpayload
      cases hstmt
      exact .literal (by simp [Token.value?, Lexeme.token, hpayload]) hderives
    · rename_i t hpayload
      cases hstmt
      exact .literal (by simp [Token.value?, Lexeme.token, hpayload]) hderives
    · rename_i name hpayload
      obtain ⟨p, hp, rfl⟩ := Option.map_eq_some_iff.1 hstmt.symm
      exact .primitive hpayload hp hderives
    · cases hstmt
    · cases hstmt

/-- A text of literals and primitive words spells the phrase of what its runs stand for. -/
theorem spells_ofSimples {path source : String} {stmts : List Simple}
    (h : (Text.runs source.toList).map Simple.ofText? = stmts.map some) :
    Spells path source (.ofSimples stmts) := by
  have hruns := (Cursor.ofSource path source).text_lexemes
  have hcursor : (Cursor.ofSource path source).rest = source.toList := rfl
  rw [hcursor] at hruns
  generalize hxs : (Cursor.ofSource path source).lexemes.1 = xs at hruns
  rw [← hruns, List.map_map] at h
  have hopen : ∀ x ∈ xs, x.text ≠ "(" := by
    intro x hx
    have hmem := h ▸ List.mem_map_of_mem hx
    obtain ⟨stmt, -, hstmt⟩ := List.mem_map.1 hmem
    exact Simple.ofText?_ne_open hstmt.symm
  obtain ⟨hout, hclosed⟩ := outsideComments_of_forall_ne hopen
  rw [Spells, tokensOf, hxs, hout]
  exact ⟨hclosed, derives_ofSimples h⟩

-- ---------------------------------------------------------------------------
-- Printing
-- ---------------------------------------------------------------------------

/-- Without a limit on the output, printing writes the value that is on top. -/
theorem Action.print_unlimited {s : State} {v : Value} (hv : v ≠ .void)
    (hlimit : s.output.limit = none) :
    print { s with stack := v :: s.stack } =
      .ok () { s with output := ⟨s.output.written ++ v.render.toUTF8, none⟩ } := by
  obtain ⟨stack, vars, ⟨written, limit⟩⟩ := s
  obtain rfl : limit = none := hlimit
  have hwrite : write v.render ⟨stack, vars, ⟨written, none⟩⟩ =
      .ok () ⟨stack, vars, ⟨written ++ v.render.toUTF8, none⟩⟩ := by
    simp only [write, Sink.accepts_unlimited, Sink.write_unlimited, if_true]
  cases v with
  | void => exact absurd rfl hv
  | int n | str t => exact hwrite

theorem exists_mem_print : ∃ p ∈ Primitive.all, p.name = "." := by
  decide

theorem Text.runs_print : runs ['.'] = ["."] :=
  runs_solid (Primitive.exists_of_name exists_mem_print).1

/-- The primitive word that prints. -/
theorem exists_print : ∃ p : Primitive,
    Simple.ofText? "." = some (.primitive p) ∧ p.action = Action.print := by
  obtain ⟨-, p, hp, hname⟩ := Primitive.exists_of_name exists_mem_print
  refine ⟨p, hp, ?_⟩
  rw [Primitive.action, hname]
  rfl

-- ---------------------------------------------------------------------------
-- Loading and running
-- ---------------------------------------------------------------------------

/-- A statement that needs a constant: all but primitive words do. -/
def Simple.takesConstant : Simple → Bool
  | primitive _ => false
  | push _ | store _ | fetch _ => true

/-- A simple statement takes the next constant, or has a small argument of its own. -/
theorem Simple.Known.argument? {stmt : Simple} (h : stmt.Known) (pool address : Nat) :
    (stmt.op.data.length = 1 ∧ stmt.takesConstant = true ∧
      ∀ d, stmt.op.argument? d pool address = some pool) ∨
    (stmt.op.data.length = 0 ∧ stmt.takesConstant = false ∧
      ∃ argument ≤ 1, ∀ d, stmt.op.argument? d pool address = some argument) := by
  cases stmt with
  | push v | store name | fetch name => exact .inl ⟨rfl, rfl, fun _ => rfl⟩
  | primitive p =>
    right
    simp only [Known, Primitive.all, List.mem_cons, List.not_mem_nil, or_false] at h
    rcases h with rfl | rfl | rfl | rfl | rfl | rfl | rfl <;>
      exact ⟨rfl, rfl, _, by decide, fun _ => rfl⟩

/-- Simple statements can be linked if there is room for their constants, whatever the
    names in the dictionary are. -/
theorem exists_linked_ofSimples {stmts : List Simple} {pool : Nat} (address : Nat)
    (hknown : (Phrase.ofSimples stmts).Known)
    (hroom : pool + stmts.countP Simple.takesConstant ≤ Instruction.argumentLimit + 1) :
    ∃ code data, ∀ d, Linked d pool address (stmts.map Simple.op ++ [.ret]) code data := by
  induction stmts generalizing pool address with
  | nil => exact ⟨_, _, fun _ => .cons rfl (Nat.zero_le _) .nil⟩
  | cons stmt stmts ih =>
    rw [List.countP_cons] at hroom
    obtain ⟨hdata, hpool, hargument⟩ | ⟨hdata, hpool, argument, hle, hargument⟩ :=
      hknown.1.argument? pool address
    · rw [hpool, if_pos rfl] at hroom
      obtain ⟨code, data, hlinked⟩ :=
        @ih (pool + stmt.op.data.length) (address + 1) hknown.2 (by omega)
      exact ⟨_, _, fun d => .cons (hargument d) (by omega) (hlinked d)⟩
    · rw [hpool, if_neg Bool.false_ne_true] at hroom
      obtain ⟨code, data, hlinked⟩ :=
        @ih (pool + stmt.op.data.length) (address + 1) hknown.2 (by omega)
      exact ⟨_, _, fun d => .cons (hargument d) (Nat.le_trans hle (by decide)) (hlinked d)⟩

/-- A machine with room for the constants of a straight-line program loads it, and runs it
    as its statements are evaluated. -/
theorem Machine.exists_load_ofSimples {m : Machine} {path source : String} {stmts : List Simple}
    (hspells : Spells path source (.ofSimples stmts))
    (hcode : m.image.dictionary.nextAddress = m.image.code.size)
    (hroom : m.image.constants.size + stmts.countP Simple.takesConstant ≤
      Instruction.argumentLimit + 1)
    (hcalls : m.calls = []) :
    ∃ m', m.load path source = .ok m' ∧
      ∀ o, Eval [] (.ofSimples stmts) m.state o → m'.EndsIn o := by
  have hknown := hspells.known.1
  have hwords := wordsOfSource_of_spells hspells
    (by rw [Phrase.depth_ofSimples]; exact Nat.zero_le _) (Phrase.fits_ofSimples hknown)
  rw [Phrase.words_ofSimples] at hwords
  obtain ⟨code, data, hlinked⟩ := exists_linked_ofSimples m.image.code.size hknown hroom
  let w := Word.ofBody Word.topLevel (.start path) (stmts.map Simple.op)
  let image := { m.image with dictionary := Image.place m.image.dictionary [w] }.extend code data
  have hops : opsOf [w] = stmts.map Simple.op ++ [.ret] := List.append_nil _
  have hlink : m.image.link [w] = .ok (image, m.image.code.size) := by
    have hfind := @Image.find?_topLevel_place m.image.dictionary [] w rfl
    refine Image.link_eq_ok_iff.2 ⟨code, data, _, ?_, rfl, hfind, hcode⟩
    rw [hops, hcode]
    exact hlinked _
  let m' : Machine := { m with image, ip := m.image.code.size }
  refine ⟨m', load_eq_ok_iff.2 ⟨_, _, _, hwords, hlink, rfl⟩, fun o heval => ?_⟩
  have hcalls' : m'.calls = [] := hcalls
  have hholds : m'.image.Holds {} m'.ip ((Phrase.ofSimples stmts).code ++ [.ret]) := by
    rw [Phrase.code_ofSimples]
    exact Image.holds_extend (hlinked _) _
  exact (Image.Realizes.endsIn_iff .nil hknown hcalls' hholds o).2 heval

end Forth
