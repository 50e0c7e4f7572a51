-- SUMMARY: Where values come from: no operation makes a new value, except integers out of integers.
import Forth.Proofs.Limits
import Forth.Proofs.Transcripts

/-!
# Provenance

A property that all integers have, and all values that stand in the source texts as
literals, is a property of every value that a session ever meets: on the stack, in the
variables and in the output. Names of variables are in the pool of constants too, but
they are never pushed.
-/

namespace Forth

-- ---------------------------------------------------------------------------
-- Instructions
-- ---------------------------------------------------------------------------

namespace Image

variable {P : Value → Prop} {image : Image}

/-- All values that instructions push have a property. -/
def Pushes (image : Image) (P : Value → Prop) : Prop :=
  ∀ address i v, image.instruction? address = some i → i.opcode? = some .push →
    image.constant? i.argument = some v → P v

/-- If all values that instructions push have the property, no instruction makes one
    without it. -/
theorem Pushes.keeps_executeAt (hint : ∀ n, P (.int n)) (h : image.Pushes P) (address : Nat) :
    (image.executeAt address).Keeps P (fun _ => True) fun _ => True :=
  keeps_executeAt_of_push hint (h address) fun _ _ _ _ _ _ => trivial

end Image

-- ---------------------------------------------------------------------------
-- Runs
-- ---------------------------------------------------------------------------

namespace Machine

variable {P : Value → Prop} {m m' : Machine}

theorem state_follow (m : Machine) (flow : Flow) : (m.follow flow).2.state = m.state := by
  obtain ⟨image, ip, calls, state⟩ := m
  cases flow with
  | next | jump target | enter target => rfl
  | leave => cases calls <;> rfl

theorem all_step (hint : ∀ n, P (.int n)) (hpushes : m.image.Pushes P) (h : m.state.All P) :
    m.step.2.state.All P := by
  have hkeeps := hpushes.keeps_executeAt hint m.ip m.state h
  unfold step
  cases hr : m.image.executeAt m.ip m.state with
  | error fault s =>
    rw [hr] at hkeeps
    exact hkeeps.2
  | ok flow s =>
    rw [hr] at hkeeps
    rw [state_follow]
    exact hkeeps.2

/-- A run keeps the property of all values. -/
theorem all_runFor (hint : ∀ n, P (.int n)) (hpushes : m.image.Pushes P) (h : m.state.All P)
    (n : Nat) : (m.runFor n).2.state.All P := by
  induction n generalizing m with
  | zero => exact h
  | succ n ih =>
    have hstep := all_step hint hpushes h
    have himage := m.image_step
    rw [runFor]
    split
    · rename_i m₁ hm₁
      rw [hm₁] at hstep himage
      exact ih (himage ▸ hpushes) hstep
    · exact hstep

def printing? (m : Machine) : Option Value :=
  match (m.image.instruction? m.ip).bind Instruction.opcode?, m.state.stack with
  | some .print, v :: _ => if v = .void then none else some v
  | _, _ => none

/-- The values that are printed within `n` instructions, in order. -/
def printedIn : Nat → Machine → List Value
  | 0, _ => []
  | n + 1, m =>
    match m.step with
    | (.running, m') => m.printing?.toList ++ printedIn n m'
    | _ => m.printing?.toList

theorem printing?_eq_some_iff {v : Value} : m.printing? = some v ↔ ∃ rest, m.Prints v rest := by
  constructor
  · intro h
    unfold printing? at h
    split at h
    · rename_i w rest hopcode hstack
      obtain ⟨hvoid, hw⟩ := Option.ite_none_left_eq_some.1 h
      cases hw
      exact ⟨rest, Option.bind_eq_some_iff.1 hopcode, hstack, hvoid⟩
    · cases h
  · rintro ⟨rest, ⟨i, hi, ho⟩, hstack, hv⟩
    simp [printing?, hi, ho, hstack, hv]

/-- What is written is what is printed. -/
theorem output_step (m : Machine) :
    m.step.2.state.output =
      m.printing?.toList.foldl (fun output v => output.write v.render.toUTF8) m.state.output := by
  cases hv : m.printing? with
  | some v =>
    obtain ⟨rest, hprints⟩ := printing?_eq_some_iff.1 hv
    rw [step_of_prints hprints]
    split <;> rfl
  | none =>
    rcases m.prints_or_silent with ⟨v, rest, hprints⟩ | hsilent
    · cases hv.symm.trans (printing?_eq_some_iff.2 ⟨rest, hprints⟩)
    · exact output_of_silent hsilent

/-- The output of a run is what was there before, with the values that it prints behind. -/
theorem output_runFor (m : Machine) (n : Nat) :
    (m.runFor n).2.state.output =
      (m.printedIn n).foldl (fun output v => output.write v.render.toUTF8) m.state.output := by
  induction n generalizing m with
  | zero => rfl
  | succ n ih =>
    have hstep := m.output_step
    rw [runFor, printedIn]
    generalize m.step = next at hstep ⊢
    obtain ⟨status, m₁⟩ := next
    cases status with
    | running =>
      rw [List.foldl_append, ← hstep]
      exact ih m₁
    | halted | failed fault => exact hstep

/-- Every value that a run prints has the property. -/
theorem all_printedIn (hint : ∀ n, P (.int n)) (hpushes : m.image.Pushes P) (h : m.state.All P)
    (n : Nat) : ∀ v ∈ m.printedIn n, P v := by
  induction n generalizing m with
  | zero => exact fun v hv => absurd hv List.not_mem_nil
  | succ n ih =>
    have hstep := all_step hint hpushes h
    have himage := m.image_step
    have hfirst : ∀ v ∈ m.printing?.toList, P v := by
      intro v hv
      obtain ⟨rest, hprints⟩ := printing?_eq_some_iff.1 (Option.mem_toList.1 hv)
      exact h.stack v (hprints.stack ▸ List.mem_cons_self)
    rw [printedIn]
    split
    · rename_i m₁ hm₁
      rw [hm₁] at hstep himage
      intro v hv
      exact (List.mem_append.1 hv).elim (hfirst v) (ih (himage ▸ hpushes) hstep v)
    · exact hfirst

end Machine

-- ---------------------------------------------------------------------------
-- Texts
-- ---------------------------------------------------------------------------

section Texts

variable {P : Value → Prop}

/-- What the code of a phrase pushes is written as a literal in its tokens. -/
theorem Derives.datum_of_push {inside : Bool} {ts : List Token} {p : Phrase}
    (h : Derives inside ts p) (hts : ∀ t ∈ ts, ∀ v, t.value? = some v → P v) :
    ∀ o ∈ p.code, o.opcode = .push → P o.datum := by
  induction h with
  | done => exact fun o ho => absurd ho List.not_mem_nil
  | literal hv _ ih =>
    obtain ⟨ht, hrest⟩ := List.forall_mem_cons.1 hts
    exact List.forall_mem_cons.2 ⟨fun _ => ht _ hv, ih hrest⟩
  | primitive _ hp _ ih =>
    have hall : ∀ p ∈ Primitive.all, p.opcode ≠ .push := by decide
    have hne := hall _ (List.mem_of_find?_eq_some hp)
    exact List.forall_mem_cons.2 ⟨fun hpush => absurd hpush hne, ih (List.forall_mem_cons.1 hts).2⟩
  | store _ _ _ _ ih | fetch _ _ _ _ ih =>
    have hrest := (List.forall_mem_cons.1 (List.forall_mem_cons.1 hts).2).2
    exact List.forall_mem_cons.2 ⟨Opcode.noConfusion, ih hrest⟩
  | call _ _ _ _ ih =>
    exact List.forall_mem_cons.2 ⟨Opcode.noConfusion, ih (List.forall_mem_cons.1 hts).2⟩
  | ifThen _ _ _ _ ihyes ihrest =>
    obtain ⟨hyes, hrest⟩ := List.forall_mem_append.1 (List.forall_mem_cons.1 hts).2
    exact List.forall_mem_cons.2 ⟨Opcode.noConfusion,
      List.forall_mem_append.2 ⟨ihyes hyes, ihrest (List.forall_mem_cons.1 hrest).2⟩⟩
  | ifThenElse _ _ _ _ _ _ ihyes ihno ihrest =>
    obtain ⟨hyes, hrest⟩ := List.forall_mem_append.1 (List.forall_mem_cons.1 hts).2
    obtain ⟨hno, hrest⟩ := List.forall_mem_append.1 (List.forall_mem_cons.1 hrest).2
    exact List.forall_mem_cons.2 ⟨Opcode.noConfusion, List.forall_mem_append.2 ⟨ihyes hyes,
      List.forall_mem_cons.2 ⟨Opcode.noConfusion,
        List.forall_mem_append.2 ⟨ihno hno, ihrest (List.forall_mem_cons.1 hrest).2⟩⟩⟩⟩
  | definition _ _ _ _ _ _ ihrest =>
    have hbody := (List.forall_mem_cons.1 (List.forall_mem_cons.1 hts).2).2
    exact ihrest (List.forall_mem_cons.1 (List.forall_mem_append.1 hbody).2).2

/-- What the words of a text push is written in it as a literal. -/
theorem Derives.datum_of_push_words {ts : List Token} {p : Phrase} (h : Derives false ts p)
    (hts : ∀ t ∈ ts, ∀ v, t.value? = some v → P v) (start : Location) :
    ∀ o ∈ opsOf (p.words start), o.opcode = .push → P o.datum := by
  intro o ho hpush
  obtain ⟨w, hw, ho⟩ := List.mem_flatMap.1 ho
  rcases List.mem_append.1 hw with hw | hw
  · obtain ⟨d, hd, rfl⟩ := List.mem_map.1 hw
    obtain ⟨us, hus, hbody⟩ := h.exists_of_mem_definitions hd
    rcases List.mem_append.1 ho with ho | ho
    · exact hbody.datum_of_push (fun t ht => hts t (hus ht)) o ho hpush
    · obtain rfl := List.mem_singleton.1 ho
      cases hpush
  · obtain rfl := List.mem_singleton.1 hw
    rcases List.mem_append.1 ho with ho | ho
    · exact h.datum_of_push hts o ho hpush
    · obtain rfl := List.mem_singleton.1 ho
      cases hpush

theorem Opcode.eq_of_ofByte?_byte {o o' : Opcode} (h : ofByte? o.byte = some o') : o = o' := by
  cases o <;> cases h <;> rfl

namespace Image

variable {image image' : Image} {words : List Word} {start : Nat}

/-- Loading adds only instructions that push what the text says. -/
theorem Pushes.link (hbuilt : image.Built) (h : image.Pushes P)
    (hwords : ∀ o ∈ opsOf words, o.opcode = .push → P o.datum)
    (hlink : image.link words = .ok (image', start)) : image'.Pushes P := by
  obtain ⟨code, data, entry, hlinked, rfl, -⟩ := link_eq_ok_iff.1 hlink
  rw [Dictionary.nextAddress_of_tiles hbuilt.tiles] at hlinked
  have hholds := holds_extend hlinked (place image.dictionary words)
  have hextends := image.extends_extend code data (place image.dictionary words)
  intro address i v hi ho hv
  by_cases haddress : address < image.code.size
  · -- the constant of an older instruction is an older one
    obtain ⟨i', hi'⟩ : ∃ i', image.instruction? address = some i' :=
      ⟨_, Array.getElem?_eq_getElem haddress⟩
    obtain rfl := Option.some.inj (hi.symm.trans (hextends.1 _ _ hi'))
    have huses : i.usesPool = true := by rw [Instruction.usesPool, ho]; rfl
    obtain ⟨v', hv'⟩ := hbuilt.wellFormed.exists_constant hi' huses
    obtain rfl := Option.some.inj (hv.symm.trans (hextends.2 _ _ hv'))
    exact h address i v hi' ho hv'
  · obtain ⟨k, rfl⟩ := Nat.le.dest (Nat.le_of_not_lt haddress)
    have hk : k < (opsOf words).length := by
      have hlt := (Array.getElem?_eq_some_iff.1 hi).1
      simp only [extend, Array.size_append, List.size_toArray, hlinked.length_code] at hlt
      omega
    obtain ⟨i', hi', hencodes⟩ := hholds.instruction? (List.getElem?_eq_getElem hk)
    obtain rfl := Option.some.inj (hi.symm.trans hi')
    have hpush : (opsOf words)[k].opcode = .push := by
      rw [Instruction.opcode?, hencodes.1] at ho
      exact Opcode.eq_of_ofByte?_byte ho
    have hconstant := hencodes.2
    rw [hpush] at hconstant
    obtain rfl := Option.some.inj (hv.symm.trans hconstant)
    exact hwords _ (List.getElem_mem hk) hpush

end Image

-- ---------------------------------------------------------------------------
-- Sessions
-- ---------------------------------------------------------------------------

/-- Every value that a machine has or can push has a property. -/
structure Machine.Carries (P : Value → Prop) (m : Machine) : Prop where
  built : m.image.Built
  pushes : m.image.Pushes P
  state : m.state.All P

/-- All integers and all literals of texts have a property. -/
structure CoversLiterals (P : Value → Prop) : Prop where
  int : ∀ n, P (.int n)
  literal : ∀ path source, ∀ t ∈ tokensOf (Cursor.ofSource path source).lexemes.1, ∀ v,
    t.value? = some v → P v

namespace Machine

variable {m m' : Machine}

theorem carries_new : ({} : Machine).Carries P where
  built := Image.built_empty
  pushes := fun address i v hi => by cases hi
  state := ⟨fun v hv => absurd hv List.not_mem_nil, fun name v hv => by cases hv⟩

/-- Loading a text keeps the property of all values, if the literals of texts have it. -/
theorem Carries.load {path source : String} (hP : CoversLiterals P) (h : m.Carries P)
    (hload : m.load path source = .ok m') : m'.Carries P := by
  have hbuilt := built_of_load h.built hload
  obtain ⟨p, image, ip, ⟨-, hderives⟩, hlink, rfl⟩ := exists_phrase_of_load hload
  have hwords := hderives.datum_of_push_words (hP.literal path source) (.start path)
  exact ⟨hbuilt, h.pushes.link h.built hwords hlink, h.state⟩

theorem Carries.writingTo (h : m.Carries P) (output : Sink) : (m.writingTo output).Carries P :=
  ⟨h.built, h.pushes, h.state.stack, h.state.vars⟩

theorem Carries.runFor (hP : CoversLiterals P) (h : m.Carries P) (n : Nat) :
    (m.runFor n).2.Carries P := by
  have himage := m.image_runFor n
  exact ⟨himage ▸ h.built, himage ▸ h.pushes, all_runFor hP.int h.pushes h.state n⟩

/-- Whatever is asked of a machine keeps the property of all values. -/
theorem Answers.carries {x : Exchange} (hP : CoversLiterals P) (h : m.Answers x m')
    (hm : m.Carries P) : m'.Carries P := by
  cases h with
  | loaded hload => exact hm.load hP (load_of_loadInPlace_ok hload)
  | refused hload => exact (load_of_loadInPlace_error hload).2 ▸ hm
  | @halted _ output n hrun | @failed _ output n fault hrun =>
    have hcarries := (hm.writingTo output).runFor hP n
    rw [hrun] at hcarries
    exact hcarries

end Machine

theorem Transcript.carries {m m' : Machine} {log : List Exchange} (hP : CoversLiterals P)
    (h : Transcript m log m') (hm : m.Carries P) : m'.Carries P := by
  induction h with
  | nil => exact hm
  | cons hx _ ih => exact ih (hx.carries hP hm)

end Texts

end Forth
