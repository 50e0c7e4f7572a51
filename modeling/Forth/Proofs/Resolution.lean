-- SUMMARY: The exact result of linking: when it succeeds, where every word goes, and what every argument becomes.
import Forth.Proofs.Staging

/-!
# Resolution

Linking goes through the words twice, with a table of names, a running address and a
running index of the pool. Its result can be said without all that. The words lie one
behind the other, and the ops in front of an op decide on its address and on the index
of its constant. A call leads to the last word of its name, or else to the newest one
that the image has. Linking succeeds just if all this exists and fits into instructions.
-/

namespace Forth

-- ---------------------------------------------------------------------------
-- Arguments
-- ---------------------------------------------------------------------------

/-- With the words placed from an address on, the last word called `name` stands at
    `target`. -/
inductive LastNamed (name : String) : Nat → List Word → Nat → Prop where
  | here {address : Nat} {w : Word} {ws : List Word} : w.name = name →
      (∀ v ∈ ws, v.name ≠ name) → LastNamed name address (w :: ws) address
  | behind {address target : Nat} {w : Word} {ws : List Word} :
      LastNamed name (address + w.ops.length) ws target → LastNamed name address (w :: ws) target

namespace Image

/-- The argument of an op of `words` behind the ops `before`, when they are linked to the
    image. -/
inductive Resolves (image : Image) (words : List Word) (before : List Op) (o : Op) :
    Nat → Prop where
  | word {name : String} {target : Nat} : o.opcode = .call → o.datum = .str name →
      LastNamed name image.dictionary.nextAddress words target →
      Resolves image words before o target
  | older {name : String} {target : Nat} : o.opcode = .call → o.datum = .str name →
      (∀ w ∈ words, w.name ≠ name) → image.dictionary.address? name = some target →
      Resolves image words before o target
  | jump : o.opcode = .jump ∨ o.opcode = .jumpIfNot →
      Resolves image words before o (image.dictionary.nextAddress + before.length + o.arg)
  | constant : o.opcode.usesPool = true →
      Resolves image words before o
        (image.constants.size + before.countP (·.opcode.usesPool))
  | plain : o.opcode ∉ [.call, .jump, .jumpIfNot] → o.opcode.usesPool = false →
      Resolves image words before o o.arg

/-- What words need to be linked to an image. -/
structure Linkable (image : Image) (words : List Word) : Prop where
  topLevel : ∃ w ∈ words, w.name = Word.topLevel
  calls : ∀ o ∈ opsOf words, o.opcode = .call → ∃ name, o.datum = .str name ∧
    ((∃ w ∈ words, w.name = name) ∨ ∃ e ∈ image.dictionary.blocks, e.name = name)
  arguments : ∀ before o behind argument, opsOf words = before ++ o :: behind →
    image.Resolves words before o argument → argument ≤ 0xffffff

/-- The image with `words` linked to it, which start at an address. -/
structure LinksTo (image : Image) (words : List Word) (start : Nat) (image' : Image) : Prop where
  blocks : image'.dictionary.blocks =
    image.dictionary.blocks ++ entriesFrom image.dictionary.nextAddress words
  code : ∃ code : List Instruction, image'.code = image.code ++ code.toArray ∧
    code.length = (opsOf words).length ∧
    ∀ before o behind, opsOf words = before ++ o :: behind →
      ∃ i, code[before.length]? = some i ∧ i.byte = o.opcode.byte ∧
        image.Resolves words before o i.argument
  constants : image'.constants = image.constants ++
    (((opsOf words).filter (·.opcode.usesPool)).map (·.datum)).toArray
  start : LastNamed Word.topLevel image.dictionary.nextAddress words start

end Image

-- ---------------------------------------------------------------------------
-- Names
-- ---------------------------------------------------------------------------

section Names

variable {name : String} {address target : Nat} {words : List Word}

/-- A name is not found among placed words if no word has it. -/
theorem find?_entriesFrom_eq_none_iff (address : Nat) :
    (entriesFrom address words).reverse.find? (·.name = name) = none ↔
      ∀ w ∈ words, w.name ≠ name := by
  induction words generalizing address with
  | nil => simp [entriesFrom]
  | cons w ws ih => simp [entriesFrom, ih, and_comm]

/-- The address that is found for a name is that of the last word with it. -/
theorem find?_entriesFrom_eq_some_iff :
    ((entriesFrom address words).reverse.find? (·.name = name)).map (·.address) = some target ↔
      LastNamed name address words target := by
  induction words generalizing address with
  | nil =>
    constructor
    · intro h
      cases h
    · intro h
      cases h
  | cons w ws ih =>
    rw [entriesFrom, List.reverse_cons, List.find?_append]
    cases hfind : (entriesFrom (address + w.ops.length) ws).reverse.find? (·.name = name) with
    | some e =>
      rw [Option.some_or, ← hfind, ih]
      constructor
      · exact .behind
      · intro h
        cases h with
        | behind h => exact h
        | here _ hnone =>
          cases hfind.symm.trans ((find?_entriesFrom_eq_none_iff _).2 hnone)
    | none =>
      have hnone := (find?_entriesFrom_eq_none_iff _).1 hfind
      have hbehind : ¬ LastNamed name (address + w.ops.length) ws target := by
        rw [← ih, hfind]
        intro h
        cases h
      rw [Option.none_or, List.find?_singleton]
      by_cases hw : w.name = name
      · rw [if_pos (decide_eq_true hw)]
        constructor
        · rintro ⟨rfl⟩
          exact .here hw hnone
        · intro h
          cases h with
          | here => rfl
          | behind h => exact absurd h hbehind
      · rw [if_neg (by simpa using hw)]
        constructor
        · intro h
          cases h
        · intro h
          cases h with
          | here hw' _ => exact absurd hw' hw
          | behind h => exact absurd h hbehind

theorem exists_lastNamed (address : Nat) (h : ∃ w ∈ words, w.name = name) :
    ∃ target, LastNamed name address words target := by
  obtain ⟨w, hw, hname⟩ := h
  cases hfind : (entriesFrom address words).reverse.find? (·.name = name) with
  | none => exact absurd hname ((find?_entriesFrom_eq_none_iff _).1 hfind w hw)
  | some e =>
    refine ⟨e.address, find?_entriesFrom_eq_some_iff.1 ?_⟩
    rw [hfind]
    rfl

theorem LastNamed.exists_word (h : LastNamed name address words target) :
    ∃ w ∈ words, w.name = name := by
  induction h with
  | here hname _ => exact ⟨_, List.mem_cons_self, hname⟩
  | behind _ ih =>
    obtain ⟨w, hw, hname⟩ := ih
    exact ⟨w, List.mem_cons_of_mem _ hw, hname⟩

/-- A name is bound to the last word that has it, or else as it was. -/
theorem Image.address?_place_eq_some_iff {d : Dictionary} :
    (place d words).address? name = some target ↔
      LastNamed name d.nextAddress words target ∨
        (∀ w ∈ words, w.name ≠ name) ∧ d.address? name = some target := by
  rw [← find?_entriesFrom_eq_some_iff, ← find?_entriesFrom_eq_none_iff d.nextAddress,
    place_eq, Dictionary.address?, Dictionary.find?, List.find?_append]
  cases (entriesFrom d.nextAddress words).reverse.find? (·.name = name) with
  | some e => simp
  | none => simp [Dictionary.address?, Dictionary.find?]

end Names

-- ---------------------------------------------------------------------------
-- Ops
-- ---------------------------------------------------------------------------

namespace Image

variable {image : Image} {words : List Word} {before : List Op} {o : Op} {argument : Nat}

/-- The argument that linking gives to an op is the one that it is specified to have. -/
theorem resolves_iff :
    o.argument? (place image.dictionary words)
        (image.constants.size + before.countP (·.opcode.usesPool))
        (image.dictionary.nextAddress + before.length) = some argument ↔
      image.Resolves words before o argument := by
  unfold Op.argument?
  constructor
  · intro h
    cases ho : o.opcode with
    | call =>
      rw [ho] at h
      cases hdatum : o.datum with
      | str name =>
        rw [hdatum] at h
        rcases address?_place_eq_some_iff.1 h with htarget | ⟨hnone, htarget⟩
        · exact .word ho hdatum htarget
        · exact .older ho hdatum hnone htarget
      | void | int n =>
        rw [hdatum] at h
        cases h
    | push | store | fetch =>
      rw [ho] at h
      cases h
      exact .constant (by rw [ho]; rfl)
    | jump =>
      rw [ho] at h
      cases h
      exact .jump (.inl ho)
    | jumpIfNot =>
      rw [ho] at h
      cases h
      exact .jump (.inr ho)
    | _ =>
      rw [ho] at h
      cases h
      exact .plain (by simp [ho]) (by rw [ho]; rfl)
  · intro h
    cases h with
    | word ho hname htarget =>
      rw [ho, hname]
      exact address?_place_eq_some_iff.2 (.inl htarget)
    | older ho hname hnone htarget =>
      rw [ho, hname]
      exact address?_place_eq_some_iff.2 (.inr ⟨hnone, htarget⟩)
    | jump ho =>
      rcases ho with ho | ho
      · rw [ho]
      · rw [ho]
    | constant huses =>
      cases ho : o.opcode with
      | push | store | fetch => rfl
      | _ => simp [ho, Opcode.usesPool] at huses
    | plain hne huses =>
      cases ho : o.opcode with
      | call | jump | jumpIfNot => simp [ho] at hne
      | push | store | fetch => simp [ho, Opcode.usesPool] at huses
      | _ => rfl

/-- Every op has an argument, if a call is to a name of the words or of the image. -/
theorem exists_resolves (words : List Word) (before : List Op)
    (hcall : o.opcode = .call → ∃ name, o.datum = .str name ∧
      ((∃ w ∈ words, w.name = name) ∨ ∃ e ∈ image.dictionary.blocks, e.name = name)) :
    ∃ argument, image.Resolves words before o argument := by
  cases ho : o.opcode with
  | call =>
    obtain ⟨name, hname, hbound⟩ := hcall ho
    by_cases hwords : ∃ w ∈ words, w.name = name
    · obtain ⟨target, htarget⟩ := exists_lastNamed image.dictionary.nextAddress hwords
      exact ⟨target, .word ho hname htarget⟩
    · obtain ⟨e, he, hentry⟩ := hbound.resolve_left hwords
      have hfound : (image.dictionary.find? name).isSome = true :=
        List.find?_isSome.2 ⟨e, List.mem_reverse.1 he, decide_eq_true hentry⟩
      obtain ⟨e', he'⟩ := Option.isSome_iff_exists.1 hfound
      refine ⟨e'.address, .older ho hname ?_ (by rw [Dictionary.address?, he']; rfl)⟩
      exact fun w hw heq => hwords ⟨w, hw, heq⟩
  | push | store | fetch => exact ⟨_, .constant (by rw [ho]; rfl)⟩
  | jump => exact ⟨_, .jump (.inl ho)⟩
  | jumpIfNot => exact ⟨_, .jump (.inr ho)⟩
  | _ => exact ⟨_, .plain (by simp [ho]) (by rw [ho]; rfl)⟩

/-- A call that is resolved has a name that is bound. -/
theorem Resolves.exists_name (h : image.Resolves words before o argument)
    (ho : o.opcode = .call) :
    ∃ name, o.datum = .str name ∧
      ((∃ w ∈ words, w.name = name) ∨ ∃ e ∈ image.dictionary.blocks, e.name = name) := by
  cases h with
  | word _ hname htarget => exact ⟨_, hname, .inl htarget.exists_word⟩
  | older _ hname _ htarget =>
    obtain ⟨e, he, -⟩ := Option.map_eq_some_iff.1 htarget
    refine ⟨_, hname, .inr ⟨e, List.mem_reverse.2 (List.mem_of_find?_eq_some he), ?_⟩⟩
    simpa using List.find?_some he
  | jump hjump => simp [ho] at hjump
  | constant huses => simp [ho, Opcode.usesPool] at huses
  | plain hne _ => simp [ho] at hne

end Image

theorem flatMap_data (ops : List Op) :
    ops.flatMap Op.data = (ops.filter (·.opcode.usesPool)).map (·.datum) := by
  induction ops with
  | nil => rfl
  | cons o ops ih =>
    rw [List.flatMap_cons, ih]
    cases ho : o.opcode.usesPool <;> simp [Op.data, ho]

namespace Linked

variable {d : Dictionary} {pool address : Nat} {ops before behind : List Op} {o : Op}
  {code : List Instruction} {data : List Value}

/-- There is one constant for each op that needs one. -/
theorem length_data (h : Linked d pool address ops code data) :
    data.length = ops.countP (·.opcode.usesPool) := by
  rw [h.data_eq, flatMap_data, List.length_map, List.countP_eq_length_filter]

/-- The ops in front of an op decide on its argument. -/
theorem exists_argument? (h : Linked d pool address (before ++ o :: behind) code data) :
    ∃ argument, o.argument? d (pool + before.countP (·.opcode.usesPool))
        (address + before.length) = some argument ∧
      argument ≤ Instruction.argumentLimit ∧
      code[before.length]? = some (.pack o.opcode argument) := by
  obtain ⟨code₁, data₁, _, _, rfl, rfl, h₁, h₂⟩ := append_iff.1 h
  cases h₂ with
  | @cons _ _ argument _ _ code₂ data₂ harg hfits _ =>
    refine ⟨argument, h₁.length_data ▸ harg, hfits, ?_⟩
    rw [← h₁.length_code, List.getElem?_append_right (Nat.le_refl _), Nat.sub_self]
    rfl

/-- Ops that all have arguments that fit can be linked. -/
theorem exists_of_forall_argument?
    (h : ∀ before o behind, ops = before ++ o :: behind →
      ∃ argument, o.argument? d (pool + before.countP (·.opcode.usesPool))
        (address + before.length) = some argument ∧ argument ≤ Instruction.argumentLimit) :
    ∃ code data, Linked d pool address ops code data := by
  induction ops generalizing pool address with
  | nil => exact ⟨[], [], .nil⟩
  | cons o ops ih =>
    obtain ⟨argument, harg, hfits⟩ := h [] o ops rfl
    have hrest : ∃ code data, Linked d (pool + o.data.length) (address + 1) ops code data := by
      apply ih
      rintro before o' behind rfl
      obtain ⟨argument', harg', hfits'⟩ := h (o :: before) o' behind rfl
      refine ⟨argument', ?_, hfits'⟩
      have hpool : pool + o.data.length + before.countP (·.opcode.usesPool) =
          pool + (o :: before).countP (·.opcode.usesPool) := by
        rw [List.countP_cons, Op.data]
        split
        · simp
          omega
        · simp
      have haddress : address + 1 + before.length = address + (o :: before).length := by
        simp only [List.length_cons]
        omega
      rw [hpool, haddress, harg']
    obtain ⟨code, data, hlinked⟩ := hrest
    exact ⟨_, _, .cons harg hfits hlinked⟩

end Linked

-- ---------------------------------------------------------------------------
-- Linking
-- ---------------------------------------------------------------------------

namespace Image

variable {image image' : Image} {words : List Word} {start : Nat}

/-- Words can be linked if there is top-level code among them and all their ops have
    arguments that fit. -/
theorem linkable_iff :
    image.Linkable words ↔ (∃ w ∈ words, w.name = Word.topLevel) ∧
      ∃ code data, Linked (place image.dictionary words) image.constants.size
        image.dictionary.nextAddress (opsOf words) code data := by
  constructor
  · intro h
    refine ⟨h.topLevel, Linked.exists_of_forall_argument? ?_⟩
    intro before o behind hsplit
    have ho : o ∈ opsOf words := by simp [hsplit]
    obtain ⟨argument, hargument⟩ := exists_resolves words before (h.calls o ho)
    exact ⟨argument, resolves_iff.2 hargument, h.arguments _ _ _ _ hsplit hargument⟩
  · rintro ⟨htop, code, data, hlinked⟩
    refine ⟨htop, ?_, ?_⟩
    · intro o ho hcall
      obtain ⟨before, behind, hsplit⟩ := List.append_of_mem ho
      obtain ⟨argument, harg, -⟩ := (hsplit ▸ hlinked).exists_argument?
      exact (resolves_iff.1 harg).exists_name hcall
    · intro before o behind argument hsplit hargument
      obtain ⟨argument', harg', hfits, -⟩ := (hsplit ▸ hlinked).exists_argument?
      obtain rfl := Option.some.inj ((resolves_iff.2 hargument).symm.trans harg')
      exact hfits

/-- The start of linked words is the last top-level code among them. -/
theorem find?_topLevel_eq_some_iff {d : Dictionary} :
    (((place d words).entries.take words.length).find? (·.name = Word.topLevel)).map (·.address) =
        some start ↔ LastNamed Word.topLevel d.nextAddress words start := by
  have hentries : (place d words).entries.take words.length =
      (entriesFrom d.nextAddress words).reverse := by
    simp [place_eq, length_entriesFrom]
  rw [hentries]
  exact find?_entriesFrom_eq_some_iff

/-- Words that were linked could be, and the image is the specified one. -/
theorem linksTo_of_link (h : image.link words = .ok (image', start)) :
    image.Linkable words ∧ image.LinksTo words start image' := by
  obtain ⟨code, data, entry, hlinked, rfl, hentry, rfl⟩ := link_eq_ok_iff.1 h
  have hstart := find?_topLevel_eq_some_iff.1 (congrArg (Option.map Entry.address) hentry)
  refine ⟨linkable_iff.2 ⟨hstart.exists_word, code, data, hlinked⟩, ?_, ?_, ?_, hstart⟩
  · exact blocks_place _ _
  · refine ⟨code, rfl, hlinked.length_code, ?_⟩
    intro before o behind hsplit
    obtain ⟨argument, harg, hfits, hi⟩ := (hsplit ▸ hlinked).exists_argument?
    refine ⟨_, hi, Instruction.byte_pack _ _, ?_⟩
    rw [Instruction.argument_pack hfits]
    exact resolves_iff.1 harg
  · rw [← flatMap_data, ← hlinked.data_eq]
    rfl

/-- Words that can be linked are. -/
theorem exists_link_of_linkable (h : image.Linkable words) :
    ∃ image' start, image.link words = .ok (image', start) := by
  obtain ⟨htop, code, data, hlinked⟩ := linkable_iff.1 h
  obtain ⟨start, hstart⟩ := exists_lastNamed image.dictionary.nextAddress htop
  obtain ⟨entry, hentry, -⟩ := Option.map_eq_some_iff.1 (find?_topLevel_eq_some_iff.2 hstart)
  exact ⟨_, _, link_eq_ok_iff.2 ⟨code, data, entry, hlinked, rfl, hentry, rfl⟩⟩

/-- Linking succeeds just if all calls are bound, all arguments fit and there is top-level
    code. Then it adds every word, every instruction and every constant that it should, and
    gives the address of the last word that holds top-level code. When it fails, the image
    is as it was. -/
theorem linkInPlace_exact (image : Image) (words : List Word) :
    (image.Linkable words ∧ ∃ start image', linkInPlace words image = .ok start image' ∧
      image.LinksTo words start image') ∨
    (¬ image.Linkable words ∧ ∃ e, linkInPlace words image = .error e image) := by
  rw [linkInPlace_eq]
  cases hlink : image.link words with
  | ok linked =>
    obtain ⟨image', start⟩ := linked
    obtain ⟨hlinkable, hlinks⟩ := linksTo_of_link hlink
    exact .inl ⟨hlinkable, start, image', rfl, hlinks⟩
  | error e =>
    refine .inr ⟨?_, e, rfl⟩
    intro hlinkable
    obtain ⟨image', start, hok⟩ := exists_link_of_linkable hlinkable
    cases hlink.symm.trans hok

end Image

end Forth
