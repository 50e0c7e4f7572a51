-- SUMMARY: Integer arithmetic from text to output: what the operators print for any two integers.
import Forth.Proofs.StraightLine
import Mathlib.Data.Int.Bitwise
import Mathlib.Data.Int.ModEq

/-!
# Arithmetic

A text with two numerals, an operator and the word that prints is loaded and run on top
of any values. What it prints is said by a relation on integers of any size: sums wrap
around, remainders have the sign of the left operand, and the bits of a negative integer
are those of its two's complement.
-/

namespace Forth

-- ---------------------------------------------------------------------------
-- Operators
-- ---------------------------------------------------------------------------

/-- The words that replace two integers by another one. -/
inductive Operator where
  | add
  | mod
  | and
  deriving DecidableEq

namespace Operator

def name : Operator → String
  | add => "+"
  | mod => "mod"
  | and => "and"

/-- The text that prints what an operator gives for two integers. -/
def source (op : Operator) (a b : Int64) : String :=
  s!"{Text.showInt64 a} {Text.showInt64 b} {op.name} ."

/-- The operator gives `r` for the integers `a` and `b`. -/
def Gives : Operator → Int → Int → Int → Prop
  | add, a, b, r => -2 ^ 63 ≤ r ∧ r < 2 ^ 63 ∧ r ≡ a + b [ZMOD 2 ^ 64]
  | mod, a, b, r => ∃ q, a = q * b + r ∧ r.natAbs < b.natAbs ∧ (r = 0 ∨ r.sign = a.sign)
  | and, a, b, r => ∀ i, r.testBit i = (a.testBit i && b.testBit i)

def compute : Operator → Int64 → Int64 → Int64
  | add, a, b => a + b
  | mod, a, b => a % b
  | and, a, b => a &&& b

/-- An operator fails only as a remainder by zero. -/
def Fails (op : Operator) (b : Int64) : Prop :=
  op = mod ∧ b = 0

end Operator

-- ---------------------------------------------------------------------------
-- Integers
-- ---------------------------------------------------------------------------

namespace Operator

variable {a b r : Int}

/-- The sum is the one that wraps around. -/
theorem gives_add_iff {a b : Int64} {r : Int} :
    add.Gives a.toInt b.toInt r ↔ r = (a + b).toInt := by
  rw [Int64.toInt_add, eq_comm, Int.bmod_eq_iff (by decide), Gives, Int.modEq_comm,
    Int.modEq_iff_dvd]
  norm_num

theorem nonneg_of_sign (h : r = 0 ∨ r.sign = a.sign) : (0 ≤ a → 0 ≤ r) ∧ (a ≤ 0 → r ≤ 0) := by
  rcases h with rfl | h
  · exact ⟨fun _ => Int.le_refl 0, fun _ => Int.le_refl 0⟩
  · exact ⟨fun ha => Int.sign_nonneg_iff.1 (h ▸ Int.sign_nonneg_iff.2 ha),
      fun ha => Int.sign_nonpos_iff.1 (h ▸ Int.sign_nonpos_iff.2 ha)⟩

/-- Two integers have one remainder with the sign of the left one. -/
theorem gives_mod_unique {r' : Int} (h : mod.Gives a b r) (h' : mod.Gives a b r') : r = r' := by
  obtain ⟨q, ha, hlt, hsign⟩ := h
  obtain ⟨q', ha', hlt', hsign'⟩ := h'
  have hdvd : b ∣ r - r' := ⟨q' - q, by linarith [Int.mul_comm b (q' - q), Int.sub_mul q' q b]⟩
  have hsmall : (r - r').natAbs < b.natAbs := by
    obtain ⟨hpos, hneg⟩ := nonneg_of_sign hsign
    obtain ⟨hpos', hneg'⟩ := nonneg_of_sign hsign'
    omega
  have hzero := Int.eq_zero_of_dvd_of_natAbs_lt_natAbs hdvd hsmall
  omega

/-- The remainder of truncated division is a remainder with the sign of the dividend. -/
theorem gives_mod (a : Int) (hb : b ≠ 0) : mod.Gives a b (a.tmod b) := by
  refine ⟨a.tdiv b, ?_, ?_, ?_⟩
  · rw [Int.mul_comm, Int.mul_tdiv_add_tmod]
  · rw [Int.natAbs_tmod]
    exact Nat.mod_lt _ (Int.natAbs_pos.2 hb)
  · rw [Int.sign_tmod]
    split
    · rename_i hdvd
      exact .inl (Int.tmod_eq_zero_of_dvd hdvd)
    · exact .inr rfl

/-- The bits of a two's complement are those of the integer, and its sign is repeated
    forever. -/
theorem testBit_toInt {w : Nat} (x : BitVec w) (i : Nat) :
    x.toInt.testBit i = if i < w then x.getLsbD i else x.msb := by
  rw [BitVec.toInt_eq_msb_cond]
  cases hmsb : x.msb with
  | false =>
    have hbit : (x.toNat : Int).testBit i = x.getLsbD i := rfl
    rw [if_neg Bool.false_ne_true, hbit]
    split
    · rfl
    · exact BitVec.getLsbD_of_ge x i (by omega)
  | true =>
    have hneg : (x.toNat : Int) - (2 ^ w : Nat) = Int.negSucc (2 ^ w - (x.toNat + 1)) := by
      have := x.isLt
      omega
    have hbit : (Int.negSucc (2 ^ w - (x.toNat + 1))).testBit i =
        !(decide (i < w) && !x.getLsbD i) :=
      congrArg (!·) (Nat.testBit_two_pow_sub_succ x.isLt i)
    rw [if_pos rfl, hneg, hbit]
    split <;> simp [*]

/-- An integer is determined by its bits. -/
theorem eq_of_testBit (h : ∀ i, a.testBit i = b.testBit i) : a = b := by
  -- behind all bits of both, the sign is left
  have hsign (m n : Nat) : ¬ ∀ i, (Int.ofNat m).testBit i = (Int.negSucc n).testBit i := by
    intro hbits
    have hbit : m.testBit (m + n) = !n.testBit (m + n) := hbits (m + n)
    rw [Nat.testBit_lt_two_pow (Nat.lt_of_le_of_lt (Nat.le_add_right m n) Nat.lt_two_pow_self),
      Nat.testBit_lt_two_pow (Nat.lt_of_le_of_lt (Nat.le_add_left n m) Nat.lt_two_pow_self)] at hbit
    cases hbit
  cases a with
  | ofNat m =>
    cases b with
    | ofNat n => exact congrArg Int.ofNat (Nat.eq_of_testBit_eq h)
    | negSucc n => exact absurd h (hsign m n)
  | negSucc m =>
    cases b with
    | ofNat n => exact absurd (fun i => (h i).symm) (hsign n m)
    | negSucc n =>
      exact congrArg Int.negSucc (Nat.eq_of_testBit_eq fun i => Bool.not_inj (h i))

/-- A conjunction is taken bit by bit. -/
theorem gives_and (a b : Int64) : and.Gives a.toInt b.toInt (a &&& b).toInt := by
  intro i
  have hbits : (a &&& b).toInt = (a.toBitVec &&& b.toBitVec).toInt := rfl
  have ha : a.toInt = a.toBitVec.toInt := rfl
  have hb : b.toInt = b.toBitVec.toInt := rfl
  rw [hbits, ha, hb, testBit_toInt, testBit_toInt, testBit_toInt]
  split
  · exact BitVec.getLsbD_and
  · exact BitVec.msb_and

/-- The machine computes the one integer that an operator gives. -/
theorem gives_iff {op : Operator} {a b : Int64} (h : ¬ op.Fails b) (r : Int) :
    op.Gives a.toInt b.toInt r ↔ r = (op.compute a b).toInt := by
  cases op with
  | add => exact gives_add_iff
  | mod =>
    have hb : b.toInt ≠ 0 := fun hzero => h ⟨rfl, Int64.toInt_inj.1 hzero⟩
    have hgives := gives_mod a.toInt hb
    rw [compute, Int64.toInt_mod]
    exact ⟨fun hr => gives_mod_unique hr hgives, fun hr => hr ▸ hgives⟩
  | and =>
    have hgives := gives_and a b
    refine ⟨fun hr => eq_of_testBit fun i => (hr i).trans (hgives i).symm, fun hr => hr ▸ hgives⟩

end Operator

-- ---------------------------------------------------------------------------
-- Programs
-- ---------------------------------------------------------------------------

namespace Operator

variable {op : Operator} {a b : Int64}

def action : Operator → Action Unit
  | add => Action.add
  | mod => Action.mod
  | and => Action.and

/-- An operator that does not fail replaces both integers by what it gives. -/
theorem action_of_not_fails (h : ¬ op.Fails b) (s : State) :
    op.action { s with stack := .int b :: .int a :: s.stack } =
      .ok () { s with stack := .int (op.compute a b) :: s.stack } := by
  cases op with
  | add => rfl
  | and => rfl
  | mod =>
    have hb : b ≠ 0 := fun hzero => h ⟨rfl, hzero⟩
    have hpop (n : Int64) (s : State) :
        Action.popInt { s with stack := .int n :: s.stack } = .ok n s := rfl
    rw [action, Action.mod, Action.bind_of_ok (hpop b { s with stack := .int a :: s.stack }),
      Action.bind_of_ok (hpop a s), if_neg hb]
    rfl

/-- An operator that fails has taken both integers off. -/
theorem action_of_fails (h : op.Fails b) (s : State) :
    op.action { s with stack := .int b :: .int a :: s.stack } = .error .moduloByZero s := by
  obtain ⟨rfl, rfl⟩ := h
  rfl

theorem exists_mem_all (op : Operator) : ∃ p ∈ Primitive.all, p.name = op.name := by
  cases op <;> decide

/-- The name of an operator is a primitive word for it. -/
theorem exists_primitive (op : Operator) : ∃ p : Primitive,
    Simple.ofText? op.name = some (.primitive p) ∧ p.action = op.action := by
  obtain ⟨-, p, hp, hname⟩ := Primitive.exists_of_name op.exists_mem_all
  refine ⟨p, hp, ?_⟩
  rw [Primitive.action, hname]
  cases op <;> rfl

theorem toList_source (op : Operator) (a b : Int64) :
    (op.source a b).toList = (Text.showInt64 a).toList ++ ' ' ::
      ((Text.showInt64 b).toList ++ ' ' :: (op.name.toList ++ ' ' :: ['.'])) := by
  simp [source, toString]

/-- The text for an operator spells two literals, the operator and a print. -/
theorem spells_source {p print : Primitive} (hp : Simple.ofText? op.name = some (.primitive p))
    (hprint : Simple.ofText? "." = some (.primitive print)) (path : String) (a b : Int64) :
    Spells path (op.source a b)
      (.ofSimples [.push (.int a), .push (.int b), .primitive p, .primitive print]) := by
  apply spells_ofSimples
  rw [toList_source, Text.runs_solid_append (Text.solid_showInt64 a),
    Text.runs_solid_append (Text.solid_showInt64 b),
    Text.runs_solid_append (Primitive.exists_of_name op.exists_mem_all).1, Text.runs_print]
  simp only [List.map_cons, List.map_nil, Simple.ofText?_showInt64, hp, hprint]

end Operator

/-- Two integers and an operator, on top of any values: what is printed is the one integer
    that the operator gives, and the values stay as they are. Only a remainder by zero
    fails, and prints nothing. The code ends where the dictionary does, as in every image
    that only texts were loaded into. -/
theorem Machine.load_operator {m : Machine} (hcalls : m.calls = [])
    (hcode : m.image.dictionary.nextAddress = m.image.code.size)
    (hroom : m.image.constants.size + 2 ≤ Instruction.argumentLimit + 1)
    (hlimit : m.state.output.limit = none) (path : String) (op : Operator) (a b : Int64) :
    ∃ m', m.load path (op.source a b) = .ok m' ∧
      (op = .mod ∧ b = 0 →
        ∃ n m'', m'.runFor n = (.failed .moduloByZero, m'') ∧ m''.state = m.state) ∧
      (¬ (op = .mod ∧ b = 0) →
        ∃ r : Int, (∀ r', op.Gives a.toInt b.toInt r' ↔ r' = r) ∧
          ∃ n m'', m'.runFor n = (.halted, m'') ∧
            m''.state = { m.state with
              output := ⟨m.state.output.written ++ (toString r).toUTF8, none⟩ }) := by
  obtain ⟨p, hp, haction⟩ := op.exists_primitive
  obtain ⟨print, hprint, hprints⟩ := exists_print
  obtain ⟨m', hload, hends⟩ :=
    exists_load_ofSimples (Operator.spells_source hp hprint path a b) hcode hroom hcalls
  let operands : State := { m.state with stack := .int b :: .int a :: m.state.stack }
  have hstart {rest : Phrase} {o : Outcome} (h : Eval [] rest operands o) :
      Eval [] (.simple (.push (.int a)) (.simple (.push (.int b)) rest)) m.state o :=
    .simple rfl (.simple rfl h)
  refine ⟨m', hload, fun hfails => ?_, fun hfails => ?_⟩
  · have hop : (Simple.primitive p).action operands = .error .moduloByZero m.state := by
      rw [Simple.action, haction]
      exact Operator.action_of_fails hfails m.state
    obtain ⟨n, m₁, m₂, hrun, -, hstep, hstate⟩ := hends _ (hstart (.simpleFails hop))
    exact ⟨n + 1, m₂, (runFor_succ hrun).trans hstep, hstate⟩
  · refine ⟨(op.compute a b).toInt, Operator.gives_iff hfails, ?_⟩
    have hop : (Simple.primitive p).action operands =
        .ok () { m.state with stack := .int (op.compute a b) :: m.state.stack } := by
      rw [Simple.action, haction]
      exact Operator.action_of_not_fails hfails m.state
    have hwrite := @Action.print_unlimited m.state (.int (op.compute a b)) Value.noConfusion hlimit
    rw [← hprints] at hwrite
    exact hends _ (hstart (.simple hop (.simple hwrite .done)))

/-- The remainder whose quotient does not fit, and a remainder by zero, behind a library
    and on top of a string. -/
theorem Machine.load_operator_on_string :
    ∃ m : Machine, (m.calls = [] ∧ m.image.dictionary.nextAddress = m.image.code.size ∧
        m.image.constants.size + 2 ≤ Instruction.argumentLimit + 1 ∧
        m.state.output.limit = none) ∧ m.image.code.size = 4 ∧ m.state.stack = [.str "x"] ∧
      (∃ m', m.load "a" "-9223372036854775808 -1 mod ." = .ok m' ∧
        ∃ n m'', m'.runFor n = (.halted, m'') ∧ m''.state.stack = [.str "x"] ∧
          m''.state.output.written = "0".toUTF8) ∧
      ∃ m', m.load "a" "-9223372036854775808 0 mod ." = .ok m' ∧
        ∃ n m'', m'.runFor n = (.failed .moduloByZero, m'') ∧ m''.state = m.state := by
  let m : Machine :=
    { ({} : Machine).tryLoad ("lib", ": double dup + ;") with state := { stack := [.str "x"] } }
  have hm : m.calls = [] ∧ m.image.dictionary.nextAddress = m.image.code.size ∧
      m.image.constants.size + 2 ≤ Instruction.argumentLimit + 1 ∧
      m.state.output.limit = none := by
    decide +kernel
  have hcode : m.image.code.size = 4 := by decide +kernel
  obtain ⟨hcalls, haligned, hroom, hlimit⟩ := hm
  have hone : Operator.source .mod Int64.minValue (-1) = "-9223372036854775808 -1 mod ." := by
    decide +kernel
  have hzero : Operator.source .mod Int64.minValue 0 = "-9223372036854775808 0 mod ." := by
    decide +kernel
  refine ⟨m, ⟨hcalls, haligned, hroom, hlimit⟩, hcode, rfl, ?_, ?_⟩
  · obtain ⟨m', hload, -, hruns⟩ :=
      load_operator hcalls haligned hroom hlimit "a" .mod Int64.minValue (-1)
    obtain ⟨r, hr, n, m'', hrun, hstate⟩ := hruns (by decide)
    have hgives : Operator.mod.Gives Int64.minValue.toInt (-1 : Int64).toInt 0 :=
      ⟨2 ^ 63, by decide, by decide, .inl rfl⟩
    obtain rfl := (hr 0).1 hgives
    exact ⟨m', hone ▸ hload, n, m'', hrun, by rw [hstate], by rw [hstate]; rfl⟩
  · obtain ⟨m', hload, hfails, -⟩ :=
      load_operator hcalls haligned hroom hlimit "a" .mod Int64.minValue 0
    exact ⟨m', hzero ▸ hload, hfails ⟨rfl, rfl⟩⟩

end Forth
