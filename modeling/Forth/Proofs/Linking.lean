-- SUMMARY: What linking does: the instructions, constants and blocks that a list of words becomes.
import Forth.Image.Execute
import Forth.Image.Link

/-!
# Linked code

`Linked` describes the code and the constants that a list of ops becomes when it
is placed at an address, by recursion on the ops and without an image. Linking
succeeds just if there are such code and constants, and adds them to the image.
`Image.Holds` reads the result back: at an address of an image stands the code of
given ops, with calls bound by a given dictionary.
-/

namespace Forth

-- ---------------------------------------------------------------------------
-- Ops and their instructions
-- ---------------------------------------------------------------------------

/-- The argument of the instruction for an op at an address, if calls are bound by
    `d` and the next constant has the index `pool`. -/
def Op.argument? (o : Op) (d : Dictionary) (pool address : Nat) : Option Nat :=
  match o.opcode with
  | .call => o.datum.text?.bind d.address?
  | .push | .store | .fetch => some pool
  | .jump | .jumpIfNot => some (address + o.arg)
  | _ => some o.arg

/-- The constants that an op needs. -/
def Op.data (o : Op) : List Value :=
  if o.opcode.usesPool then [o.datum] else []

/-- The ops placed from an address on become this code, with these constants from
    the index `pool` on. -/
inductive Linked (d : Dictionary) : Nat → Nat → List Op → List Instruction → List Value → Prop where
  | nil {pool address : Nat} : Linked d pool address [] [] []
  | cons {pool address argument : Nat} {o : Op} {ops : List Op} {code : List Instruction}
      {data : List Value} :
      o.argument? d pool address = some argument → argument ≤ Instruction.argumentLimit →
      Linked d (pool + o.data.length) (address + 1) ops code data →
      Linked d pool address (o :: ops) (.pack o.opcode argument :: code) (o.data ++ data)

theorem bind_eq_ok_iff {ε α β : Type} {x : Except ε α} {f : α → Except ε β} {b : β} :
    x >>= f = .ok b ↔ ∃ a, x = .ok a ∧ f a = .ok b := by
  cases x <;> simp [bind, Except.bind]

theorem eq_ok_of_toOption {ε α : Type} {x : Except ε α} {a : α} (h : x.toOption = some a) :
    x = .ok a := by
  cases x with
  | error e => cases h
  | ok b =>
    cases h
    rfl

namespace Image

def extend (image : Image) (code : List Instruction) (data : List Value) : Image :=
  { image with
    code := image.code ++ code.toArray
    constants := image.constants ++ data.toArray }

@[simp] theorem extend_extend (image : Image) (code code' : List Instruction)
    (data data' : List Value) :
    (image.extend code data).extend code' data' = image.extend (code ++ code') (data ++ data') := by
  simp [extend, Array.append_assoc]

/-- The argument of an op is resolved whenever it has one. -/
theorem resolve_eq_ok_iff {image : Image} {word : Word} {address argument : Nat} {op : Op} :
    image.resolve word address op = .ok argument ↔
      op.argument? image.dictionary image.constants.size address = some argument := by
  unfold resolve Op.argument?
  cases op.opcode with
  | call =>
    cases op.datum with
    | str name => cases h : image.dictionary.address? name <;> simp [Value.text?, h]
    | void | int n => simp [Value.text?]
  | _ => simp

/-- An op is emitted whenever it has an argument that fits, and it adds one instruction
    and its constants. -/
theorem emit_eq_ok_iff {image image' : Image} {word : Word} {address : Nat} {op : Op} :
    image.emit word address op = .ok image' ↔
      ∃ argument, op.argument? image.dictionary image.constants.size address = some argument ∧
        argument ≤ Instruction.argumentLimit ∧
        image' = image.extend [.pack op.opcode argument] op.data := by
  unfold emit
  cases h : image.resolve word address op with
  | error e =>
    have hnone : ∀ argument,
        op.argument? image.dictionary image.constants.size address ≠ some argument := by
      intro argument hsome
      cases h.symm.trans (resolve_eq_ok_iff.2 hsome)
    simp [bind, Except.bind, hnone]
  | ok argument =>
    have hsize : (if op.opcode.usesPool then image.addConstant op.datum else image).addInstruction
        (.pack op.opcode argument) = image.extend [.pack op.opcode argument] op.data := by
      unfold Op.data
      split <;> simp [extend, addConstant, addInstruction]
    rw [resolve_eq_ok_iff.1 h]
    by_cases hfits : argument ≤ Instruction.argumentLimit
    · simp only [bind, Except.bind, pure, Except.pure, hfits, if_true, hsize, Except.ok.injEq]
      constructor
      · rintro rfl
        exact ⟨argument, rfl, hfits, rfl⟩
      · rintro ⟨_, ⟨rfl⟩, -, rfl⟩
        rfl
    · simp [bind, Except.bind, throw, throwThe, MonadExceptOf.throw, hfits]

/-- Linking ops one after the other succeeds just if they can be linked, and adds
    what they become. -/
theorem foldlM_emit_eq_ok_iff {image image' : Image} {sites : List (Word × Op)} {address : Nat} :
    (sites.zipIdx address).foldlM (fun image ((word, op), address) => image.emit word address op)
        image = .ok image' ↔
      ∃ code data, Linked image.dictionary image.constants.size address (sites.map (·.2)) code data ∧
        image' = image.extend code data := by
  induction sites generalizing image address with
  | nil =>
    constructor
    · intro h
      cases h
      exact ⟨[], [], .nil, by simp [extend]⟩
    · rintro ⟨code, data, hlinked, rfl⟩
      cases hlinked
      simp [extend, pure, Except.pure]
  | cons site sites ih =>
    obtain ⟨word, op⟩ := site
    rw [List.zipIdx_cons, List.foldlM_cons, List.map_cons]
    constructor
    · intro h
      obtain ⟨image₁, hemit, hrest⟩ := bind_eq_ok_iff.1 h
      obtain ⟨argument, harg, hfits, rfl⟩ := emit_eq_ok_iff.1 hemit
      obtain ⟨code, data, hlinked, rfl⟩ := ih.1 hrest
      refine ⟨_, _, .cons harg hfits ?_, extend_extend _ _ _ _ _⟩
      simpa [extend] using hlinked
    · rintro ⟨code, data, hlinked, rfl⟩
      cases hlinked with
      | @cons _ _ argument _ _ code data harg hfits hlinked =>
        refine bind_eq_ok_iff.2 ⟨_, emit_eq_ok_iff.2 ⟨_, harg, hfits, rfl⟩, ih.2 ?_⟩
        refine ⟨code, data, ?_, (extend_extend image [_] code op.data data).symm⟩
        simpa [extend] using hlinked

/-- Linking fails at the first op that can not be added. -/
theorem exists_of_foldlM_emit_eq_error {image : Image} {sites : List (Word × Op)} {address : Nat}
    {e : LinkError}
    (h : (sites.zipIdx address).foldlM
      (fun image ((word, op), address) => image.emit word address op) image = .error e) :
    ∃ before word op behind code data, sites = before ++ (word, op) :: behind ∧
      Linked image.dictionary image.constants.size address (before.map (·.2)) code data ∧
      (image.extend code data).emit word (address + before.length) op = .error e := by
  induction sites generalizing image address with
  | nil => cases h
  | cons site sites ih =>
    obtain ⟨word, op⟩ := site
    rw [List.zipIdx_cons, List.foldlM_cons] at h
    cases hemit : image.emit word address op with
    | error e' =>
      obtain rfl : e' = e := by simpa [hemit, bind, Except.bind] using h
      exact ⟨[], word, op, sites, [], [], rfl, .nil, by simpa [extend] using hemit⟩
    | ok image₁ =>
      obtain ⟨argument, harg, hfits, rfl⟩ := emit_eq_ok_iff.1 hemit
      have hrest : (sites.zipIdx (address + 1)).foldlM
          (fun image ((word, op), address) => image.emit word address op)
          (image.extend [.pack op.opcode argument] op.data) = .error e := by
        simpa [hemit, bind, Except.bind] using h
      obtain ⟨before, word', op', behind, code, data, rfl, hlinked, herror⟩ := ih hrest
      refine ⟨(word, op) :: before, word', op', behind, .pack op.opcode argument :: code,
        op.data ++ data, rfl, .cons harg hfits ?_, ?_⟩
      · simpa [extend] using hlinked
      · rw [extend_extend] at herror
        rw [List.length_cons, Nat.add_comm before.length, ← Nat.add_assoc]
        exact herror

theorem emit_of_argument? {image : Image} {word : Word} {address argument : Nat} {op : Op}
    (h : op.argument? image.dictionary image.constants.size address = some argument) :
    image.emit word address op =
      if argument ≤ Instruction.argumentLimit then
        .ok (image.extend [.pack op.opcode argument] op.data)
      else
        .error ⟨some word.location, .argumentTooLarge argument op.opcode word.name⟩ := by
  split
  · rename_i hfits
    exact emit_eq_ok_iff.2 ⟨argument, h, hfits, rfl⟩
  · rename_i hfits
    simp [emit, resolve_eq_ok_iff.2 h, bind, Except.bind, hfits, throw, throwThe,
      MonadExceptOf.throw]

/-- A call of a name without an address is an undefined word. -/
theorem emit_of_address?_eq_none {image : Image} {word : Word} {address : Nat} {op : Op}
    {name : String} (hop : op.opcode = .call) (hdatum : op.datum = .str name)
    (h : image.dictionary.address? name = none) :
    image.emit word address op = .error ⟨some word.location, .undefinedWord name word.name⟩ := by
  simp [emit, resolve, hop, hdatum, h, bind, Except.bind]

end Image

-- ---------------------------------------------------------------------------
-- Placing words
-- ---------------------------------------------------------------------------

/-- The ops of a list of words, one word behind the other. -/
def opsOf (words : List Word) : List Op :=
  words.flatMap (·.ops)

@[simp] theorem opsOf_nil : opsOf [] = [] := rfl

@[simp] theorem opsOf_cons (w : Word) (ws : List Word) : opsOf (w :: ws) = w.ops ++ opsOf ws := rfl

@[simp] theorem opsOf_append (vs ws : List Word) : opsOf (vs ++ ws) = opsOf vs ++ opsOf ws :=
  List.flatMap_append

/-- The entries of words that are placed from an address on. -/
def entriesFrom : Nat → List Word → List Entry
  | _, [] => []
  | address, w :: ws =>
    ⟨w.location, w.name, address, w.ops.length⟩ :: entriesFrom (address + w.ops.length) ws

theorem entriesFrom_append (address : Nat) (vs ws : List Word) :
    entriesFrom address (vs ++ ws) =
      entriesFrom address vs ++ entriesFrom (address + (opsOf vs).length) ws := by
  induction vs generalizing address with
  | nil => rfl
  | cons v vs ih =>
    rw [List.cons_append, entriesFrom, entriesFrom, ih, opsOf_cons, List.length_append,
      Nat.add_assoc, List.cons_append]

theorem length_entriesFrom (address : Nat) (ws : List Word) :
    (entriesFrom address ws).length = ws.length := by
  induction ws generalizing address with
  | nil => rfl
  | cons w ws ih => exact congrArg (· + 1) (ih _)

namespace Image

theorem place_append (d : Dictionary) (vs ws : List Word) :
    place d (vs ++ ws) = place (place d vs) ws :=
  List.foldl_append

/-- Words take up as many addresses as they have ops. -/
theorem nextAddress_place (d : Dictionary) (ws : List Word) :
    (place d ws).nextAddress = d.nextAddress + (opsOf ws).length := by
  induction ws generalizing d with
  | nil => rfl
  | cons w ws ih =>
    rw [opsOf_cons, List.length_append, ← Nat.add_assoc]
    exact ih (d.define w.name w.location w.ops.length)

theorem blocks_place (d : Dictionary) (ws : List Word) :
    (place d ws).blocks = d.blocks ++ entriesFrom d.nextAddress ws := by
  induction ws generalizing d with
  | nil => exact (List.append_nil _).symm
  | cons w ws ih =>
    have h := ih (d.define w.name w.location w.ops.length)
    rw [Dictionary.blocks_define, Dictionary.nextAddress_define, List.append_assoc] at h
    exact h

theorem place_eq (d : Dictionary) (ws : List Word) :
    place d ws = ⟨(entriesFrom d.nextAddress ws).reverse ++ d.entries⟩ := by
  have hblocks := congrArg List.reverse (blocks_place d ws)
  rw [Dictionary.blocks, List.reverse_reverse, Dictionary.blocks, List.reverse_append,
    List.reverse_reverse] at hblocks
  exact congrArg Dictionary.mk hblocks

/-- A name that no word has keeps its address. -/
theorem address?_place_of_forall_ne {d : Dictionary} {ws : List Word} {name : String}
    (h : ∀ w ∈ ws, w.name ≠ name) : (place d ws).address? name = d.address? name := by
  induction ws generalizing d with
  | nil => rfl
  | cons w ws ih =>
    have hne : w.name ≠ name := h w List.mem_cons_self
    calc (place d (w :: ws)).address? name
      _ = (d.define w.name w.location w.ops.length).address? name :=
        ih fun v hv => h v (List.mem_cons_of_mem w hv)
      _ = d.address? name :=
        congrArg (Option.map Entry.address) (d.find?_define_of_ne w.location w.ops.length hne)

/-- A name is bound to the last word that has it. -/
theorem address?_place {d : Dictionary} {vs ws : List Word} {w : Word}
    (h : ∀ v ∈ ws, v.name ≠ w.name) :
    (place d (vs ++ w :: ws)).address? w.name = some (d.nextAddress + (opsOf vs).length) := by
  rw [place_append, ← nextAddress_place]
  refine (address?_place_of_forall_ne h).trans ?_
  rw [Dictionary.address?, Dictionary.find?_define_self]
  rfl

/-- The last of some words is what its name is bound to. -/
theorem find?_place_last (d : Dictionary) (ws : List Word) (w : Word) :
    (place d (ws ++ [w])).find? w.name =
      some ⟨w.location, w.name, d.nextAddress + (opsOf ws).length, w.ops.length⟩ := by
  rw [place_append, ← nextAddress_place]
  exact Dictionary.find?_define_self _ _ _ _

theorem map_snd_sites (words : List Word) :
    (words.flatMap fun w => w.ops.map (w, ·)).map (·.2) = opsOf words := by
  simp [opsOf, List.map_flatMap, Function.comp_def]

/-- Linking succeeds just if the ops of all words can be linked and one of the words
    holds top-level code, and adds what they become. -/
theorem link_eq_ok_iff {image image' : Image} {words : List Word} {start : Nat} :
    image.link words = .ok (image', start) ↔
      ∃ code data entry,
        Linked (place image.dictionary words) image.constants.size image.dictionary.nextAddress
          (opsOf words) code data ∧
        image' = { image with dictionary := place image.dictionary words }.extend code data ∧
        ((place image.dictionary words).entries.take words.length).find?
          (·.name = Word.topLevel) = some entry ∧ entry.address = start := by
  unfold link sites
  constructor
  · intro h
    obtain ⟨linked, hfold, hstart⟩ := bind_eq_ok_iff.1 h
    obtain ⟨code, data, hlinked, rfl⟩ := foldlM_emit_eq_ok_iff.1 hfold
    rw [map_snd_sites] at hlinked
    split at hstart
    · rename_i entry hentry
      cases hstart
      exact ⟨code, data, entry, hlinked, rfl, hentry, rfl⟩
    · cases hstart
  · rintro ⟨code, data, entry, hlinked, rfl, hentry, rfl⟩
    rw [← map_snd_sites] at hlinked
    refine bind_eq_ok_iff.2 ⟨_, foldlM_emit_eq_ok_iff.2 ⟨code, data, hlinked, rfl⟩, ?_⟩
    rw [hentry]
    rfl

/-- An op of some words stands in one of them. -/
theorem exists_word_of_sites {words : List Word} {before behind : List (Word × Op)} {word : Word}
    {op : Op} (h : (words.flatMap fun w => w.ops.map (w, ·)) = before ++ (word, op) :: behind) :
    ∃ ws ws' front back, words = ws ++ word :: ws' ∧ word.ops = front ++ op :: back ∧
      before.map (·.2) = opsOf ws ++ front := by
  induction words generalizing before with
  | nil => simp at h
  | cons w words ih =>
    rw [List.flatMap_cons] at h
    obtain ⟨before', rfl, hrest⟩ | ⟨here, hops, hrest⟩ := List.append_eq_append_iff.1 h
    · obtain ⟨ws, ws', front, back, rfl, hword, hbefore⟩ := ih hrest
      exact ⟨w :: ws, ws', front, back, rfl, hword, by simp [hbefore, Function.comp_def]⟩
    · cases here with
      | nil =>
        have hnone : (words.flatMap fun w => w.ops.map (w, ·)) = [] ++ (word, op) :: behind :=
          hrest.symm
        obtain ⟨ws, ws', front, back, rfl, hword, hbefore⟩ := ih hnone
        rw [List.append_nil] at hops
        refine ⟨w :: ws, ws', front, back, rfl, hword, ?_⟩
        rw [← hops, opsOf_cons, List.append_assoc, ← hbefore]
        simp [Function.comp_def]
      | cons site here =>
        obtain ⟨rfl, -⟩ := List.cons.inj hrest
        obtain ⟨front, rest, hfront, rfl, hrest⟩ := List.map_eq_append_iff.1 hops
        obtain ⟨op', back, rfl, hsite, -⟩ := List.map_eq_cons_iff.1 hrest
        obtain ⟨rfl, rfl⟩ := Prod.mk.inj hsite
        exact ⟨[], words, front, back, rfl, hfront, by simp [Function.comp_def]⟩

/-- Linking fails at the first op that can not be added, or because no word holds
    top-level code. -/
theorem exists_of_link_eq_error {image : Image} {words : List Word} {e : LinkError}
    (h : image.link words = .error e) :
    (∃ ws word ws' front op back code data, words = ws ++ word :: ws' ∧
      word.ops = front ++ op :: back ∧
      Linked (place image.dictionary words) image.constants.size image.dictionary.nextAddress
        (opsOf ws ++ front) code data ∧
      ({ image with dictionary := place image.dictionary words }.extend code data).emit word
        (image.dictionary.nextAddress + (opsOf ws ++ front).length) op = .error e) ∨
    ((place image.dictionary words).entries.take words.length).find?
      (·.name = Word.topLevel) = none := by
  unfold link sites at h
  cases hfold : ((words.flatMap fun w => w.ops.map (w, ·)).zipIdx
      image.dictionary.nextAddress).foldlM
        (fun image ((word, op), address) => image.emit word address op)
        { image with dictionary := place image.dictionary words } with
  | error e' =>
    obtain rfl : e' = e := by simpa [hfold, bind, Except.bind] using h
    obtain ⟨before, word, op, behind, code, data, hsites, hlinked, herror⟩ :=
      exists_of_foldlM_emit_eq_error hfold
    obtain ⟨ws, ws', front, back, hwords, hops, hbefore⟩ := exists_word_of_sites hsites
    refine .inl ⟨ws, word, ws', front, op, back, code, data, hwords, hops, ?_, ?_⟩
    · rwa [← hbefore]
    · rwa [← hbefore, List.length_map]
  | ok linked =>
    right
    cases hfound : ((place image.dictionary words).entries.take words.length).find?
        (·.name = Word.topLevel) with
    | none => rfl
    | some entry => simp [hfold, hfound, bind, Except.bind, pure, Except.pure] at h

/-- Top-level code that is placed last is found among the entries of its own text. -/
theorem find?_topLevel_place {d : Dictionary} {ws : List Word} {w : Word}
    (hw : w.name = Word.topLevel) :
    ((place d (ws ++ [w])).entries.take (ws ++ [w]).length).find? (·.name = Word.topLevel) =
      some ⟨w.location, w.name, d.nextAddress + (opsOf ws).length, w.ops.length⟩ := by
  rw [place_append, ← nextAddress_place, List.length_append]
  simp [place, Dictionary.define, hw]

/-- Words with top-level code at their end start there. -/
theorem start_of_link {image image' : Image} {ws : List Word} {w : Word} {start : Nat}
    (h : image.link (ws ++ [w]) = .ok (image', start)) (hw : w.name = Word.topLevel) :
    start = image.dictionary.nextAddress + (opsOf ws).length := by
  obtain ⟨code, data, entry, -, -, hentry, rfl⟩ := link_eq_ok_iff.1 h
  rw [find?_topLevel_place hw] at hentry
  cases hentry
  rfl

end Image

-- ---------------------------------------------------------------------------
-- Reading code back
-- ---------------------------------------------------------------------------

namespace Image

/-- What an instruction at an address of an image does as the op `o`, if calls are
    bound by `d`. -/
def Encodes (image : Image) (d : Dictionary) (address : Nat) (o : Op) (i : Instruction) : Prop :=
  i.byte = o.opcode.byte ∧
    match o.opcode with
    | .call => ∃ name, o.datum = .str name ∧ d.address? name = some i.argument
    | .push | .store | .fetch => image.constant? i.argument = some o.datum
    | .jump | .jumpIfNot => i.argument = address + o.arg
    | _ => i.argument = o.arg

/-- At an address of an image stands the code of these ops. -/
def Holds (image : Image) (d : Dictionary) : Nat → List Op → Prop
  | _, [] => True
  | address, o :: ops =>
    (∃ i, image.instruction? address = some i ∧ image.Encodes d address o i) ∧
      image.Holds d (address + 1) ops

variable {image image' : Image} {d : Dictionary} {address : Nat}

theorem variableName_of_constant? {index : Nat} {name : String}
    (h : image.constant? index = some (.str name)) : image.variableName index = pure name := by
  rw [variableName, constant, h]
  rfl

theorem holds_append {ops ops' : List Op} :
    image.Holds d address (ops ++ ops') ↔
      image.Holds d address ops ∧ image.Holds d (address + ops.length) ops' := by
  induction ops generalizing address with
  | nil => simp [Holds]
  | cons o ops ih =>
    rw [List.cons_append, List.length_cons, Nat.add_comm ops.length, ← Nat.add_assoc]
    simp only [Holds, ih, and_assoc]

/-- `image'` has all the code and the constants of `image`. -/
def Extends (image' image : Image) : Prop :=
  (∀ address i, image.instruction? address = some i → image'.instruction? address = some i) ∧
    ∀ index v, image.constant? index = some v → image'.constant? index = some v

theorem extends_extend (image : Image) (code : List Instruction) (data : List Value)
    (d : Dictionary) : ({ image with dictionary := d }.extend code data).Extends image := by
  constructor
  · intro address i h
    obtain ⟨hlt, -⟩ := Array.getElem?_eq_some_iff.1 h
    exact (Array.getElem?_append_left hlt).trans h
  · intro index v h
    obtain ⟨hlt, -⟩ := Array.getElem?_eq_some_iff.1 h
    exact (Array.getElem?_append_left hlt).trans h

/-- An instruction does the same as an op in every extension of the image. -/
theorem Encodes.mono {o : Op} {i : Instruction} (hext : image'.Extends image)
    (h : image.Encodes d address o i) : image'.Encodes d address o i := by
  refine ⟨h.1, ?_⟩
  have harg := h.2
  split at harg
  · exact harg
  · exact hext.2 _ _ harg
  · exact hext.2 _ _ harg
  · exact hext.2 _ _ harg
  · exact harg
  · exact harg
  · exact harg

theorem Holds.mono {ops : List Op} (hext : image'.Extends image)
    (h : image.Holds d address ops) : image'.Holds d address ops := by
  induction ops generalizing address with
  | nil => trivial
  | cons o ops ih =>
    obtain ⟨⟨i, hi, henc⟩, hrest⟩ := h
    exact ⟨⟨i, hext.1 _ _ hi, henc.mono hext⟩, ih hrest⟩

/-- Every op of held code has its instruction. -/
theorem Holds.instruction? {ops : List Op} {k : Nat} {o : Op} (h : image.Holds d address ops)
    (ho : ops[k]? = some o) :
    ∃ i, image.instruction? (address + k) = some i ∧ image.Encodes d (address + k) o i := by
  induction ops generalizing address k with
  | nil => cases ho
  | cons o' ops ih =>
    cases k with
    | zero =>
      cases ho
      exact h.1
    | succ k =>
      rw [Nat.add_comm k, ← Nat.add_assoc]
      exact ih h.2 ho

end Image

namespace Linked

variable {d : Dictionary} {pool address : Nat} {ops : List Op} {code : List Instruction}
  {data : List Value}

theorem length_code (h : Linked d pool address ops code data) : code.length = ops.length := by
  induction h with
  | nil => rfl
  | cons _ _ _ ih => exact congrArg (· + 1) ih

theorem data_eq (h : Linked d pool address ops code data) : data = ops.flatMap Op.data := by
  induction h with
  | nil => rfl
  | cons _ _ _ ih => rw [ih, List.flatMap_cons]

/-- Linking ops is linking a part of them, and then the rest behind it. -/
theorem append_iff {ops' : List Op} :
    Linked d pool address (ops ++ ops') code data ↔
      ∃ code₁ data₁ code₂ data₂, code = code₁ ++ code₂ ∧ data = data₁ ++ data₂ ∧
        Linked d pool address ops code₁ data₁ ∧
        Linked d (pool + data₁.length) (address + ops.length) ops' code₂ data₂ := by
  induction ops generalizing pool address code data with
  | nil =>
    constructor
    · intro h
      exact ⟨[], [], code, data, rfl, rfl, .nil, h⟩
    · rintro ⟨_, _, code₂, data₂, rfl, rfl, hnil, h⟩
      cases hnil
      exact h
  | cons o ops ih =>
    rw [List.cons_append, List.length_cons, Nat.add_comm ops.length, ← Nat.add_assoc]
    constructor
    · intro h
      cases h with
      | cons harg hfits hrest =>
        obtain ⟨code₁, data₁, code₂, data₂, rfl, rfl, h₁, h₂⟩ := ih.1 hrest
        refine ⟨_, _, code₂, data₂, rfl, (List.append_assoc ..).symm, .cons harg hfits h₁, ?_⟩
        rwa [List.length_append, ← Nat.add_assoc]
    · rintro ⟨_, _, code₂, data₂, rfl, rfl, h₁, h₂⟩
      cases h₁ with
      | cons harg hfits h₁ =>
        rw [List.length_append, ← Nat.add_assoc] at h₂
        rw [List.cons_append, List.append_assoc]
        exact .cons harg hfits (ih.2 ⟨_, _, _, _, rfl, rfl, h₁, h₂⟩)

/-- An instruction with the argument of an op encodes it, if the constants of the op are
    in the pool. -/
theorem encodes {image : Image} {o : Op} {argument : Nat}
    (harg : o.argument? d pool address = some argument) (hfits : argument ≤ Instruction.argumentLimit)
    (hdata : ∀ v ∈ o.data, image.constant? pool = some v) :
    image.Encodes d address o (.pack o.opcode argument) := by
  refine ⟨Instruction.byte_pack _ _, ?_⟩
  rw [Instruction.argument_pack hfits]
  unfold Op.argument? at harg
  unfold Op.data at hdata
  split at harg
  · obtain ⟨name, hname, haddress⟩ := Option.bind_eq_some_iff.1 harg
    cases hdatum : o.datum <;> simp_all [Value.text?]
  all_goals simp_all [Opcode.usesPool]

/-- An image that has the code and the constants at their places holds the ops. -/
theorem holds {image : Image} (h : Linked d pool address ops code data)
    (hcode : ∀ k i, code[k]? = some i → image.instruction? (address + k) = some i)
    (hdata : ∀ k v, data[k]? = some v → image.constant? (pool + k) = some v) :
    image.Holds d address ops := by
  induction h with
  | nil => trivial
  | @cons pool address argument o ops code data harg hfits _ ih =>
    refine ⟨⟨_, hcode 0 _ rfl, encodes harg hfits ?_⟩, ih ?_ ?_⟩
    · intro v hv
      apply hdata 0 v
      unfold Op.data at hv ⊢
      split at hv <;> simp_all
    · intro k i hk
      rw [Nat.add_assoc, Nat.add_comm 1]
      exact hcode (k + 1) i hk
    · intro k v hk
      rw [Nat.add_assoc]
      apply hdata
      rwa [List.getElem?_append_right (Nat.le_add_right _ _), Nat.add_sub_cancel_left]

end Linked

namespace Image

/-- What is linked to the end of an image is held by the new image. -/
theorem holds_extend {image : Image} {d : Dictionary} {ops : List Op} {code : List Instruction}
    {data : List Value} (h : Linked d image.constants.size image.code.size ops code data)
    (d' : Dictionary) :
    ({ image with dictionary := d' }.extend code data).Holds d image.code.size ops := by
  refine h.holds ?_ ?_
  · intro k i hk
    simpa [extend, instruction?, Array.getElem?_append] using hk
  · intro k v hk
    simpa [extend, constant?, Array.getElem?_append] using hk

end Image

end Forth
