-- SUMMARY: Static binding: a call keeps the definition that its name stood for when its text was loaded.
import Forth.Proofs.Correctness

/-!
# Static binding

The log of a machine lists the texts that it has loaded, newest first. A name that is
called in a text stands for the last definition of that name in the text itself, or
else in the newest older text that has one. This is settled when the text is loaded:
loading other texts, or failing to load them, only adds to what is there.
-/

namespace Forth

-- ---------------------------------------------------------------------------
-- Logs
-- ---------------------------------------------------------------------------

/-- A text that was loaded: the address that its code starts at, its path, and the
    phrase that it spells. -/
structure Load where
  base : Nat
  path : String
  phrase : Phrase

namespace Load

def words (l : Load) : List Word :=
  l.phrase.words (.start l.path)

/-- The start of the last definition of a name in the text. -/
def address? (l : Load) (name : String) : Option Nat :=
  ((entriesFrom l.base l.phrase.definedWords).reverse.find? (·.name = name)).map (·.address)

end Load

/-- The texts that a machine has tried to load, newest first, and the log of those that
    it has loaded. -/
inductive Logged : List (String × String) → List Load → Machine → Prop where
  | new : Logged [] [] {}
  | load {texts : List (String × String)} {log : List Load} {m m' : Machine}
      {path source : String} {p : Phrase} :
      Logged texts log m → m.load path source = .ok m' → Spells path source p →
      Logged ((path, source) :: texts) (⟨m.image.code.size, path, p⟩ :: log) m'
  | refuse {texts : List (String × String)} {log : List Load} {m : Machine}
      {path source : String} {e : LoadError} :
      Logged texts log m → m.load path source = .error e →
      Logged ((path, source) :: texts) log m

def dictionaryOf (log : List Load) : Dictionary :=
  ⟨log.flatMap fun l => (entriesFrom l.base l.words).reverse⟩

/-- A name other than that of top-level code is bound by the newest text that defines it. -/
theorem address?_dictionaryOf {name : String} (hname : name ≠ Word.topLevel) (log : List Load) :
    (dictionaryOf log).address? name = log.findSome? (·.address? name) := by
  have hload (l : Load) : ((entriesFrom l.base l.words).reverse.find? (·.name = name)).map
      (·.address) = l.address? name := by
    rw [Load.words, Phrase.words, entriesFrom_append, List.reverse_append]
    simp [entriesFrom, Load.address?, hname.symm]
  rw [Dictionary.address?, Dictionary.find?, dictionaryOf, List.find?_flatMap, List.map_findSome?]
  simp only [Function.comp_def, hload]

namespace Image

/-- One image is the beginning of another. -/
structure IsPrefix (image image' : Image) : Prop where
  code : image.code.toList <+: image'.code.toList
  constants : image.constants.toList <+: image'.constants.toList
  blocks : image.dictionary.blocks <+: image'.dictionary.blocks

theorem isPrefix_refl (image : Image) : image.IsPrefix image :=
  ⟨List.prefix_refl _, List.prefix_refl _, List.prefix_refl _⟩

theorem IsPrefix.trans {image₁ image₂ image₃ : Image} (h : image₁.IsPrefix image₂)
    (h' : image₂.IsPrefix image₃) : image₁.IsPrefix image₃ :=
  ⟨h.code.trans h'.code, h.constants.trans h'.constants, h.blocks.trans h'.blocks⟩

theorem IsPrefix.extends {image image' : Image} (h : image.IsPrefix image') :
    image'.Extends image := by
  constructor
  · intro p i hi
    obtain ⟨hlt, rfl⟩ := Array.getElem?_eq_some_iff.1 hi
    simpa [Image.instruction?] using List.prefix_iff_getElem?.1 h.code p hlt
  · intro k v hv
    obtain ⟨hlt, rfl⟩ := Array.getElem?_eq_some_iff.1 hv
    simpa [Image.constant?] using List.prefix_iff_getElem?.1 h.constants k hlt

/-- Linking leaves the beginning of an image alone. -/
theorem isPrefix_of_link {image image' : Image} {words : List Word} {start : Nat}
    (h : image.link words = .ok (image', start)) : image.IsPrefix image' := by
  obtain ⟨code, data, _, -, rfl, -⟩ := link_eq_ok_iff.1 h
  refine ⟨?_, ?_, ?_⟩
  · simp [extend]
  · simp [extend]
  · exact ⟨_, (blocks_place _ _).symm⟩

end Image

namespace Machine

variable {m : Machine}

/-- Trying to load a text keeps everything that is in the image. -/
theorem isPrefix_tryLoad (m : Machine) (text : String × String) :
    m.image.IsPrefix (m.tryLoad text).image := by
  unfold tryLoad
  split
  · rename_i m' hload
    obtain ⟨_, _, _, -, hlink, rfl⟩ := exists_phrase_of_load hload
    exact Image.isPrefix_of_link hlink
  · exact Image.isPrefix_refl _

/-- No number of loads changes what was loaded before. -/
theorem isPrefix_foldl_tryLoad (m : Machine) (texts : List (String × String)) :
    m.image.IsPrefix (texts.foldl tryLoad m).image := by
  induction texts generalizing m with
  | nil => exact Image.isPrefix_refl _
  | cons text texts ih => exact (m.isPrefix_tryLoad text).trans (ih (m.tryLoad text))

end Machine

-- ---------------------------------------------------------------------------
-- Names that are called
-- ---------------------------------------------------------------------------

theorem Simple.Known.opcode_ne_call {stmt : Simple} (h : stmt.Known) : stmt.op.opcode ≠ .call := by
  cases stmt with
  | push v | store name | fetch name => exact Opcode.noConfusion
  | primitive p =>
    have hall : ∀ p ∈ Primitive.all, p.opcode ≠ .call := by decide
    exact hall p h

/-- A call in the code of a phrase is a call of a name, and not of top-level code. -/
theorem Phrase.Known.exists_call {p : Phrase} {o : Op} (h : p.Known) (ho : o ∈ p.code)
    (hcall : o.opcode = .call) : ∃ name, o = .call name ∧ name ≠ Word.topLevel := by
  induction p with
  | done => cases ho
  | simple stmt rest ih =>
    rcases List.mem_cons.1 ho with rfl | ho
    · exact absurd hcall h.1.opcode_ne_call
    · exact ih h.2 ho
  | call name rest ih =>
    rcases List.mem_cons.1 ho with rfl | ho
    · exact ⟨name, rfl, h.1⟩
    · exact ih h.2 ho
  | ifThen yes rest ihyes ihrest =>
    rcases List.mem_cons.1 ho with rfl | ho
    · cases hcall
    · rcases List.mem_append.1 ho with ho | ho
      · exact ihyes h.1 ho
      · exact ihrest h.2 ho
  | ifThenElse yes no rest ihyes ihno ihrest =>
    simp only [code, List.mem_cons, List.mem_append] at ho
    rcases ho with rfl | ho | rfl | ho | ho
    · cases hcall
    · exact ihyes h.1 ho
    · cases hcall
    · exact ihno h.2.1 ho
    · exact ihrest h.2.2 ho
  | definition location name body rest _ ihrest => exact ihrest h ho

/-- The ops that call are those of calls by name, and no text calls its top-level code. -/
theorem Spells.exists_call {path source : String} {p : Phrase} {start : Location} {o : Op}
    (h : Spells path source p) (ho : o ∈ opsOf (p.words start)) (hcall : o.opcode = .call) :
    ∃ name, o = .call name ∧ name ≠ Word.topLevel := by
  have hbody : ∀ q : Phrase, q.Known → o ∈ q.code ++ [.ret] →
      ∃ name, o = .call name ∧ name ≠ Word.topLevel := by
    intro q hknown hmem
    rcases List.mem_append.1 hmem with hmem | hmem
    · exact hknown.exists_call hmem hcall
    · rw [List.mem_singleton.1 hmem] at hcall
      cases hcall
  obtain ⟨w, hw, ho⟩ := List.mem_flatMap.1 ho
  rcases List.mem_append.1 hw with hw | hw
  · obtain ⟨d, hd, rfl⟩ := List.mem_map.1 hw
    exact hbody d.body (h.known.2 d hd) ho
  · obtain rfl := List.mem_singleton.1 hw
    exact hbody p h.known.1 ho

/-- No call of a text has the name of top-level code. -/
theorem Spells.ne_topLevel {path source name : String} {p : Phrase} {start : Location}
    (h : Spells path source p) (hcall : .call name ∈ opsOf (p.words start)) :
    name ≠ Word.topLevel := by
  obtain ⟨name', heq, hname'⟩ := h.exists_call hcall rfl
  cases heq
  exact hname'

-- ---------------------------------------------------------------------------
-- Logs and images
-- ---------------------------------------------------------------------------

namespace Logged

variable {texts : List (String × String)} {log : List Load} {m : Machine}

theorem built (h : Logged texts log m) : m.image.Built := by
  induction h with
  | new => exact Image.built_empty
  | load _ hload _ ih => exact Machine.built_of_load ih hload
  | refuse _ _ ih => exact ih

/-- The dictionary of a machine is that of its log. -/
theorem dictionary_eq (h : Logged texts log m) : m.image.dictionary = dictionaryOf log := by
  induction h with
  | new => rfl
  | load hlog hload hspells ih =>
    obtain ⟨p, image, ip, hspells', hlink, rfl⟩ := Machine.exists_phrase_of_load hload
    obtain rfl := hspells.unique hspells'
    obtain ⟨code, data, _, -, rfl, -⟩ := Image.link_eq_ok_iff.1 hlink
    refine (Image.place_eq _ _).trans ?_
    rw [Dictionary.nextAddress_of_tiles hlog.built.tiles, ih]
    rfl
  | refuse _ _ ih => exact ih

/-- The code of a logged text is there, with its calls bound by the log up to that text. -/
theorem holds (h : Logged texts log m) {newer older : List Load} {l : Load}
    (hlog : log = newer ++ l :: older) :
    m.image.Holds (dictionaryOf (l :: older)) l.base (opsOf l.words) := by
  induction h generalizing newer with
  | new => cases newer <;> cases hlog
  | refuse _ _ ih => exact ih hlog
  | @load texts log m m' path source p h hload hspells ih =>
    have hdictionary := (h.load hload hspells).dictionary_eq
    obtain ⟨p', image, ip, hspells', hlink, rfl⟩ := Machine.exists_phrase_of_load hload
    obtain rfl := hspells.unique hspells'
    have hprefix := Image.isPrefix_of_link hlink
    cases newer with
    | cons _ newer =>
      exact (ih (List.cons.inj hlog).2).mono hprefix.extends
    | nil =>
      obtain ⟨rfl, rfl⟩ := List.cons.inj hlog
      obtain ⟨code, data, _, hlinked, rfl, -⟩ := Image.link_eq_ok_iff.1 hlink
      rw [Dictionary.nextAddress_of_tiles h.built.tiles] at hlinked
      rw [← hdictionary]
      exact Image.holds_extend hlinked _

/-- Each text that a machine tries to load extends the log, if at all. -/
theorem exists_tryLoad (h : Logged texts log m) (text : String × String) :
    ∃ newer, Logged (text :: texts) (newer ++ log) (m.tryLoad text) := by
  unfold Machine.tryLoad
  cases hload : m.load text.1 text.2 with
  | ok m' =>
    obtain ⟨p, -, -, hspells, -⟩ := Machine.exists_phrase_of_load hload
    exact ⟨[_], h.load hload hspells⟩
  | error e => exact ⟨[], h.refuse hload⟩

/-- Whatever is tried next, the log only grows. -/
theorem exists_foldl_tryLoad (h : Logged texts log m) (later : List (String × String)) :
    ∃ newer, Logged (later.reverse ++ texts) (newer ++ log) (later.foldl Machine.tryLoad m) := by
  induction later generalizing texts log m with
  | nil => exact ⟨[], h⟩
  | cons text later ih =>
    obtain ⟨new, hnew⟩ := h.exists_tryLoad text
    obtain ⟨newer, hnewer⟩ := ih hnew
    refine ⟨newer ++ new, ?_⟩
    rw [List.reverse_cons, List.append_assoc, List.append_assoc]
    exact hnewer

/-- No call of a logged text has the name of top-level code. -/
theorem ne_topLevel (h : Logged texts log m) {l : Load} (hl : l ∈ log) {name : String}
    (hcall : .call name ∈ opsOf l.words) : name ≠ Word.topLevel := by
  induction h with
  | new => cases hl
  | refuse _ _ ih => exact ih hl
  | load _ _ hspells ih =>
    rcases List.mem_cons.1 hl with rfl | hl
    · exact hspells.ne_topLevel hcall
    · exact ih hl

/-- A call of a name leads to the last definition of the name in the same text, or else
    in the newest older text that has one. Whatever is loaded later, the call stays as it
    is, and so does everything else in the image, while the name comes to stand for its
    newest definition. -/
theorem calls_bound_statically (h : Logged texts log m) {later : List (String × String)}
    {m' : Machine} (hm' : later.foldl Machine.tryLoad m = m') :
    (∀ newer l older, log = newer ++ l :: older → ∀ k name, (opsOf l.words)[k]? = some (.call name) →
        ∃ i, m.image.instruction? (l.base + k) = some i ∧
          m'.image.instruction? (l.base + k) = some i ∧ i.opcode? = some .call ∧
          (l :: older).findSome? (·.address? name) = some i.argument) ∧
      m.image.code.toList <+: m'.image.code.toList ∧
      m.image.constants.toList <+: m'.image.constants.toList ∧
      m.image.dictionary.blocks <+: m'.image.dictionary.blocks ∧
      ∃ newest, Logged (later.reverse ++ texts) (newest ++ log) m' ∧
        ∀ name ≠ Word.topLevel,
          m'.image.dictionary.address? name = (newest ++ log).findSome? (·.address? name) := by
  subst hm'
  have hprefix := m.isPrefix_foldl_tryLoad later
  obtain ⟨newest, hnewest⟩ := h.exists_foldl_tryLoad later
  refine ⟨?_, hprefix.code, hprefix.constants, hprefix.blocks, newest, hnewest, ?_⟩
  · intro newer l older hlog k name hk
    obtain ⟨i, hi, henc⟩ := (h.holds hlog).instruction? hk
    have hopcode : i.opcode? = some .call := henc.opcode? Opcode.noConfusion
    obtain ⟨-, name', hdatum, haddress⟩ := henc
    obtain rfl := Value.str.inj hdatum
    have hname : name ≠ Word.topLevel :=
      h.ne_topLevel (by rw [hlog]; simp) (List.mem_of_getElem? hk)
    rw [address?_dictionaryOf hname] at haddress
    exact ⟨i, hi, hprefix.extends.1 _ _ hi, hopcode, haddress⟩
  · intro name hname
    rw [hnewest.dictionary_eq, address?_dictionaryOf hname]

/-- A call of a word that is defined twice in its text, before and behind the call, and
    once more in a newer text. The text in between can not be loaded. -/
theorem calls_bound_statically_redefined :
    ∃ l m m', Logged [("a", ": f 1 ; : g f ; : f 2 ;")] [l] m ∧
      [("b", ": f 3 ; nothing"), ("c", ": f 4 ;")].foldl Machine.tryLoad m = m' ∧
      (opsOf l.words)[2]? = some (.call "f") ∧ l.address? "f" = some 4 ∧
      (∃ i, m'.image.instruction? 2 = some i ∧ i.opcode? = some .call ∧ i.argument = 4) ∧
      m'.image.dictionary.address? "f" = some 7 := by
  let m : Machine := ({} : Machine).tryLoad ("a", ": f 1 ; : g f ; : f 2 ;")
  let defined : List Word :=
    [.ofBody "f" ⟨"a", 1, 1⟩ [.push (.int 1)], .ofBody "g" ⟨"a", 1, 9⟩ [.call "f"],
      .ofBody "f" ⟨"a", 1, 17⟩ [.push (.int 2)]]
  let words : List Word := defined ++ [.ofBody Word.topLevel (.start "a") []]
  have hruns : (wordsOfSource "a" ": f 1 ; : g f ; : f 2 ;").toOption = some words ∧
      (({} : Machine).load "a" ": f 1 ; : g f ; : f 2 ;").isOk = true ∧
      (opsOf words)[2]? = some (.call "f") ∧
      ((entriesFrom 0 defined).reverse.find? (·.name = "f")).map (·.address) = some 4 ∧
      ([("b", ": f 3 ; nothing"), ("c", ": f 4 ;")].foldl Machine.tryLoad
        m).image.dictionary.address? "f" = some 7 := by
    decide +kernel
  obtain ⟨hsome, hload, hcall, haddress, hnewest⟩ := hruns
  obtain ⟨p, hspells, -, -, hp⟩ := spells_of_wordsOfSource (eq_ok_of_toOption hsome)
  have hdefined : p.definedWords = defined := (List.append_inj_left' hp rfl).symm
  let l : Load := ⟨0, "a", p⟩
  have hl : l.address? "f" = some 4 := by rw [Load.address?, hdefined]; exact haddress
  have hk : (opsOf l.words)[2]? = some (.call "f") := by rw [Load.words, ← hp]; exact hcall
  have hlogged : Logged [("a", ": f 1 ; : g f ; : f 2 ;")] [l] m :=
    .load .new (Machine.load_eq_ok_tryLoad hload) hspells
  obtain ⟨i, -, hi, hopcode, hbound⟩ :=
    (calls_bound_statically hlogged rfl).1 [] l [] rfl 2 "f" hk
  rw [List.findSome?_cons, hl] at hbound
  exact ⟨l, m, _, hlogged, rfl, hk, hl, ⟨i, hi, hopcode, (Option.some.inj hbound).symm⟩, hnewest⟩

end Logged

end Forth
