-- SUMMARY: The layout of images: what holds of the blocks, the code and the constants of everything loaded.
import Forth.Machine
import Forth.Proofs.Linking
import Forth.Proofs.Parsing

/-!
# The layout of images

The blocks of an image lie side by side and cover its code. Each of them holds
the code of one compiled word: ops that lead forward, and then a return. What is
known of the single instructions follows from that, and loading keeps it.
-/

namespace Forth

-- ---------------------------------------------------------------------------
-- Compiled ops
-- ---------------------------------------------------------------------------

/-- What an op of a compiled body is like: it has the datum that it needs, and a
    jump goes forward by at most `room` ops. -/
def Op.Sound (o : Op) (room : Nat) : Prop :=
  match o.opcode with
  | .invalid | .ret => False
  | .push => o.datum ≠ .void
  | .call | .store | .fetch => ∃ name, o.datum = .str name
  | .jump | .jumpIfNot => 0 < o.arg ∧ o.arg ≤ room
  | _ => True

theorem Op.Sound.mono {o : Op} {room room' : Nat} (h : o.Sound room) (hle : room ≤ room') :
    o.Sound room' := by
  unfold Sound at h ⊢
  split at h
  all_goals first | exact h | exact ⟨h.1, Nat.le_trans h.2 hle⟩

/-- Every op is sound, and no jump goes beyond the end of the ops. -/
def Forward : List Op → Prop
  | [] => True
  | o :: ops => o.Sound (ops.length + 1) ∧ Forward ops

theorem Forward.append {ops ops' : List Op} (h : Forward ops) (h' : Forward ops') :
    Forward (ops ++ ops') := by
  induction ops with
  | nil => exact h'
  | cons o ops ih =>
    have hle : ops.length + 1 ≤ (ops ++ ops').length + 1 := by simp
    exact ⟨h.1.mono hle, ih h.2⟩

/-- Every op of code that leads forward is sound, with the room that is left from it on. -/
theorem Forward.sound {ops : List Op} {k : Nat} {o : Op} (h : Forward ops)
    (ho : ops[k]? = some o) : o.Sound (ops.length - k) := by
  induction ops generalizing k with
  | nil => cases ho
  | cons o' ops ih =>
    cases k with
    | zero =>
      cases ho
      exact h.1
    | succ k =>
      rw [List.length_cons, Nat.add_sub_add_right]
      exact ih h.2 ho

theorem Primitive.sound_of_find? {name : String} {p : Primitive} (h : find? name = some p)
    (room : Nat) : (Simple.primitive p).op.Sound room := by
  have hmem : p ∈ all := List.mem_of_find?_eq_some h
  have hall : ∀ p ∈ all, (Simple.primitive p).op.Sound room := by
    simp [all, Simple.op, Op.Sound]
  exact hall p hmem

theorem Token.value?_ne_void {t : Token} {v : Value} (h : t.value? = some v) : v ≠ .void := by
  unfold value? at h
  split at h <;> simp_all <;> simp [← h]

/-- The code of a phrase leads forward. -/
theorem Derives.forward_code {inside : Bool} {ts : List Token} {p : Phrase}
    (h : Derives inside ts p) : Forward p.code := by
  induction h with
  | done => trivial
  | literal hv _ ih => exact ⟨Token.value?_ne_void hv, ih⟩
  | primitive _ hp _ ih => exact ⟨Primitive.sound_of_find? hp _, ih⟩
  | store _ _ _ _ ih | fetch _ _ _ _ ih | call _ _ _ _ ih => exact ⟨⟨_, rfl⟩, ih⟩
  | @ifThen _ _ _ _ _ yes rest _ _ _ _ ihyes ihrest =>
    refine ⟨⟨Nat.succ_pos _, ?_⟩, ihyes.append ihrest⟩
    simp [Op.jumpIfNot]
  | @ifThenElse _ _ _ _ _ _ _ yes no rest _ _ _ _ _ _ ihyes ihno ihrest =>
    refine ⟨⟨Nat.succ_pos _, ?_⟩, ihyes.append ⟨⟨Nat.succ_pos _, ?_⟩, ihno.append ihrest⟩⟩
    · simp [Op.jumpIfNot]
    · simp [Op.jump]
  | definition _ _ _ _ _ _ ihrest => exact ihrest

/-- A word as the compiler makes it: a body that leads forward, and then a return. -/
def Word.Compiled (w : Word) : Prop :=
  ∃ body, Forward body ∧ w.ops = body ++ [.ret]

/-- The words of a phrase are as the compiler makes them. -/
theorem Derives.compiled_words {ts : List Token} {p : Phrase} {start : Location} {w : Word}
    (h : Derives false ts p) (hw : w ∈ p.words start) : w.Compiled := by
  rcases List.mem_append.1 hw with hw | hw
  · obtain ⟨d, hd, rfl⟩ := List.mem_map.1 hw
    obtain ⟨us, -, hbody⟩ := h.exists_of_mem_definitions hd
    exact ⟨d.body.code, hbody.forward_code, rfl⟩
  · obtain rfl := List.mem_singleton.1 hw
    exact ⟨p.code, h.forward_code, rfl⟩

-- ---------------------------------------------------------------------------
-- Blocks side by side
-- ---------------------------------------------------------------------------

theorem Entry.covers_iff {e : Entry} {p : Nat} :
    e.covers p = true ↔ e.address ≤ p ∧ p < e.finish := by
  simp [covers]

/-- The blocks lie side by side from one address up to another, and none is empty. -/
def Tiles : Nat → List Entry → Nat → Prop
  | start, [], stop => start = stop
  | start, e :: es, stop => e.address = start ∧ 0 < e.size ∧ Tiles e.finish es stop

namespace Tiles

variable {start stop p : Nat} {e : Entry} {es : List Entry}

theorem append {mid : Nat} {fs : List Entry} (h : Tiles start es mid) (h' : Tiles mid fs stop) :
    Tiles start (es ++ fs) stop := by
  induction es generalizing start with
  | nil => exact (show start = mid from h) ▸ h'
  | cons e es ih => exact ⟨h.1, h.2.1, ih h.2.2⟩

theorem finish_eq (h : Tiles start (es ++ [e]) stop) : e.finish = stop := by
  induction es generalizing start with
  | nil => exact h.2.2
  | cons e' es ih => exact ih h.2.2

theorem le (h : Tiles start es stop) : start ≤ stop := by
  induction es generalizing start with
  | nil => exact Nat.le_of_eq h
  | cons e es ih =>
    obtain ⟨rfl, -, hrest⟩ := h
    exact Nat.le_trans (Nat.le_add_right _ _) (ih hrest)

theorem countP_of_lt (h : Tiles start es stop) (hp : p < start) :
    es.countP (·.covers p) = 0 := by
  induction es generalizing start with
  | nil => rfl
  | cons e es ih =>
    obtain ⟨rfl, hsize, hrest⟩ := h
    have hcovers : ¬ e.covers p = true := fun hc =>
      Nat.not_lt_of_le (Entry.covers_iff.1 hc).1 hp
    rw [List.countP_cons, if_neg hcovers]
    exact ih hrest (Nat.lt_of_lt_of_le hp (Nat.le_add_right _ _))

/-- Blocks side by side cover every address between them once. -/
theorem countP_eq_one (h : Tiles start es stop) (hstart : start ≤ p) (hstop : p < stop) :
    es.countP (·.covers p) = 1 := by
  induction es generalizing start with
  | nil =>
    obtain rfl : start = stop := h
    exact absurd hstop (Nat.not_lt_of_le hstart)
  | cons e es ih =>
    obtain ⟨rfl, hsize, hrest⟩ := h
    by_cases hp : p < e.finish
    · rw [List.countP_cons, if_pos (Entry.covers_iff.2 ⟨hstart, hp⟩), hrest.countP_of_lt hp]
    · rw [List.countP_cons, if_neg fun hc => hp (Entry.covers_iff.1 hc).2]
      exact ih hrest (Nat.le_of_not_lt hp)

/-- Every address in between is covered by some block. -/
theorem exists_covers (h : Tiles start es stop) (hstart : start ≤ p) (hstop : p < stop) :
    ∃ e ∈ es, e.covers p = true := by
  apply List.countP_pos_iff.1
  rw [h.countP_eq_one hstart hstop]
  exact Nat.one_pos

theorem bounds (h : Tiles start es stop) (he : e ∈ es) :
    0 < e.size ∧ e.finish ≤ stop := by
  induction es generalizing start with
  | nil => cases he
  | cons e' es ih =>
    obtain ⟨rfl, hsize, hrest⟩ := h
    rcases List.mem_cons.1 he with rfl | he
    · exact ⟨hsize, hrest.le⟩
    · exact ih hrest he

theorem address_lt (h : Tiles start es stop) (he : e ∈ es) : e.address < stop := by
  obtain ⟨hsize, hfinish⟩ := h.bounds he
  exact Nat.lt_of_lt_of_le (Nat.lt_add_of_pos_right hsize) hfinish

end Tiles

theorem Dictionary.nextAddress_of_tiles {d : Dictionary} {n : Nat} (h : Tiles 0 d.blocks n) :
    d.nextAddress = n := by
  obtain ⟨entries⟩ := d
  cases entries with
  | nil => exact h
  | cons e es =>
    rw [blocks, List.reverse_cons] at h
    exact h.finish_eq

/-- The entries of words that are not empty lie side by side. -/
theorem tiles_entriesFrom {address : Nat} {ws : List Word} (h : ∀ w ∈ ws, 0 < w.ops.length) :
    Tiles address (entriesFrom address ws) (address + (opsOf ws).length) := by
  induction ws generalizing address with
  | nil => rfl
  | cons w ws ih =>
    refine ⟨rfl, h w List.mem_cons_self, ?_⟩
    rw [opsOf_cons, List.length_append, ← Nat.add_assoc]
    exact ih fun v hv => h v (List.mem_cons_of_mem w hv)

/-- The block of a placed word holds its ops. -/
theorem Image.Holds.of_mem_entriesFrom {image : Image} {d : Dictionary} {address : Nat}
    {ws : List Word} {e : Entry} (h : image.Holds d address (opsOf ws))
    (he : e ∈ entriesFrom address ws) :
    ∃ w ∈ ws, e.size = w.ops.length ∧ image.Holds d e.address w.ops := by
  induction ws generalizing address with
  | nil => cases he
  | cons w ws ih =>
    rw [opsOf_cons, holds_append] at h
    rcases List.mem_cons.1 he with rfl | he
    · exact ⟨w, List.mem_cons_self, rfl, h.1⟩
    · obtain ⟨v, hv, hsize, hholds⟩ := ih h.2 he
      exact ⟨v, List.mem_cons_of_mem w hv, hsize, hholds⟩

-- ---------------------------------------------------------------------------
-- The constant pool
-- ---------------------------------------------------------------------------

def Instruction.opcode? (i : Instruction) : Option Opcode :=
  Opcode.ofByte? i.byte

theorem Image.executeAt_of_opcode? {image : Image} {p : Nat} {i : Instruction} {o : Opcode}
    (hi : image.instruction? p = some i) (ho : i.opcode? = some o) :
    image.executeAt p = image.execute i.argument o := by
  rw [executeAt, hi]
  dsimp only
  rw [show Opcode.ofByte? i.byte = some o from ho]

/-- Whether the argument of an instruction is an index of the constant pool. -/
def Instruction.usesPool (i : Instruction) : Bool :=
  i.opcode?.any Opcode.usesPool

@[simp] theorem Instruction.usesPool_pack (opcode : Opcode) (argument : Nat) :
    (pack opcode argument).usesPool = opcode.usesPool := by
  rw [usesPool, opcode?, byte_pack]
  cases opcode <;> rfl

/-- The arguments that are indices of the pool, in the order of their addresses. -/
def Image.poolArguments (image : Image) : List Nat :=
  (image.code.toList.filter (·.usesPool)).map (·.argument)

/-- The argument of an op that needs a constant is the next index of the pool. -/
theorem Op.argument?_of_usesPool {o : Op} {d : Dictionary} {pool address argument : Nat}
    (h : o.opcode.usesPool = true) (harg : o.argument? d pool address = some argument) :
    argument = pool := by
  unfold argument? at harg
  split at harg <;> simp_all [Opcode.usesPool]

/-- Linked code refers to its constants one after the other. -/
theorem Linked.arguments {d : Dictionary} {pool address : Nat} {ops : List Op}
    {code : List Instruction} {data : List Value} (h : Linked d pool address ops code data) :
    (code.filter (·.usesPool)).map (·.argument) = List.range' pool data.length := by
  induction h with
  | nil => rfl
  | @cons pool address argument o ops code data harg hfits _ ih =>
    cases hpool : o.opcode.usesPool with
    | true =>
      obtain rfl := Op.argument?_of_usesPool hpool harg
      rw [Op.data, if_pos hpool] at ih
      simp [Op.data, hpool, Instruction.argument_pack hfits, List.range'_succ, ih]
    | false => simpa [Op.data, hpool] using ih

theorem Linked.exists_of_mem_data {d : Dictionary} {pool address : Nat} {ops : List Op}
    {code : List Instruction} {data : List Value} {v : Value}
    (h : Linked d pool address ops code data) (hv : v ∈ data) :
    ∃ o ∈ ops, o.opcode.usesPool = true ∧ o.datum = v := by
  induction h with
  | nil => cases hv
  | @cons _ _ _ o _ _ _ _ _ _ ih =>
    rcases List.mem_append.1 hv with hv | hv
    · unfold Op.data at hv
      split at hv
      · rename_i hpool
        exact ⟨o, List.mem_cons_self, hpool, (List.mem_singleton.1 hv).symm⟩
      · cases hv
    · obtain ⟨o', ho', hpool, hdatum⟩ := ih hv
      exact ⟨o', List.mem_cons_of_mem o ho', hpool, hdatum⟩

theorem Op.Sound.opcode_ne_invalid {o : Op} {room : Nat} (h : o.Sound room) :
    o.opcode ≠ .invalid := by
  intro hinvalid
  rw [Sound, hinvalid] at h
  exact h

theorem Op.Sound.datum_ne_void {o : Op} {room : Nat} (h : o.Sound room)
    (hpool : o.opcode.usesPool = true) : o.datum ≠ .void := by
  obtain ⟨opcode, arg, datum⟩ := o
  cases opcode with
  | push => exact h
  | store | fetch =>
    obtain ⟨name, hname⟩ := h
    rw [hname]
    exact Value.noConfusion
  | _ => cases hpool

-- ---------------------------------------------------------------------------
-- Images that loading builds
-- ---------------------------------------------------------------------------

namespace Image

/-- The block holds a compiled word, with its calls bound to blocks of the image. -/
def Compiled (image : Image) (e : Entry) : Prop :=
  ∃ d body, Forward body ∧ e.size = body.length + 1 ∧ image.Holds d e.address (body ++ [.ret]) ∧
    ∀ name address, d.address? name = some address →
      ∃ target ∈ image.dictionary.blocks, target.address = address

/-- What loading keeps. -/
structure Built (image : Image) : Prop where
  tiles : Tiles 0 image.dictionary.blocks image.code.size
  compiled : ∀ e ∈ image.dictionary.blocks, image.Compiled e
  pool : image.poolArguments = List.range image.constants.size
  noVoid : ∀ v ∈ image.constants, v ≠ .void

variable {image image' : Image} {words : List Word} {start p : Nat} {e : Entry}

theorem built_empty : ({} : Image).Built where
  tiles := rfl
  compiled := fun e he => nomatch he
  pool := rfl
  noVoid := fun v hv => by simp at hv

/-- The address of a name is the start of a block. -/
theorem exists_block_of_address? {d : Dictionary} {name : String} {address : Nat}
    (h : d.address? name = some address) : ∃ e ∈ d.blocks, e.address = address := by
  obtain ⟨e, he, haddress⟩ := Option.map_eq_some_iff.1 h
  exact ⟨e, List.mem_reverse.2 (List.mem_of_find?_eq_some he), haddress⟩

/-- A block stays compiled in an image with more code and more blocks. -/
theorem Compiled.mono (h : image.Compiled e) (hext : image'.Extends image)
    (hblocks : image.dictionary.blocks ⊆ image'.dictionary.blocks) : image'.Compiled e := by
  obtain ⟨d, body, hbody, hsize, hholds, hcalls⟩ := h
  refine ⟨d, body, hbody, hsize, hholds.mono hext, ?_⟩
  intro name address haddress
  obtain ⟨target, htarget, heq⟩ := hcalls name address haddress
  exact ⟨target, hblocks htarget, heq⟩

theorem Built.tiles_place (h : image.Built) (hwords : ∀ w ∈ words, w.Compiled) :
    Tiles 0 (place image.dictionary words).blocks
      (image.dictionary.nextAddress + (opsOf words).length) := by
  have hsize : ∀ w ∈ words, 0 < w.ops.length := by
    intro w hw
    obtain ⟨body, -, hops⟩ := hwords w hw
    simp [hops]
  rw [blocks_place, Dictionary.nextAddress_of_tiles h.tiles]
  exact h.tiles.append (tiles_entriesFrom hsize)

/-- Linking compiled words keeps what is known of the image. -/
theorem Built.link (h : image.Built) (hwords : ∀ w ∈ words, w.Compiled)
    (hlink : image.link words = .ok (image', start)) : image'.Built := by
  obtain ⟨code, data, entry, hlinked, rfl, -, -⟩ := link_eq_ok_iff.1 hlink
  have hext := extends_extend image code data (place image.dictionary words)
  have hblocks := blocks_place image.dictionary words
  rw [Dictionary.nextAddress_of_tiles h.tiles] at hlinked hblocks
  refine ⟨?_, ?_, ?_, ?_⟩
  · have htiles := h.tiles_place hwords
    rw [Dictionary.nextAddress_of_tiles h.tiles] at htiles
    simpa [extend, hlinked.length_code] using htiles
  · intro e he
    rcases List.mem_append.1 (hblocks ▸ he) with hold | hnew
    · refine (h.compiled e hold).mono hext ?_
      exact hblocks ▸ List.subset_append_left _ _
    · have hholds := holds_extend hlinked (place image.dictionary words)
      obtain ⟨w, hw, hsize, hholds⟩ := hholds.of_mem_entriesFrom hnew
      obtain ⟨body, hbody, hops⟩ := hwords w hw
      rw [hops] at hsize hholds
      refine ⟨place image.dictionary words, body, hbody, by simpa using hsize, hholds, ?_⟩
      exact fun name address => exists_block_of_address?
  · have hpool := h.pool
    have hrange := @List.range'_append_1 0 image.constants.size data.length
    rw [Nat.zero_add] at hrange
    unfold poolArguments at hpool ⊢
    simp [extend, hpool, hlinked.arguments, List.range_eq_range', hrange]
  · intro v hv
    rcases Array.mem_append.1 hv with hv | hv
    · exact h.noVoid v hv
    · obtain ⟨o, ho, hpool, rfl⟩ := hlinked.exists_of_mem_data (List.mem_toArray.1 hv)
      obtain ⟨w, hw, ho⟩ := List.mem_flatMap.1 ho
      obtain ⟨body, hbody, hops⟩ := hwords w hw
      rw [hops, List.mem_append, List.mem_singleton] at ho
      rcases ho with ho | rfl
      · obtain ⟨k, hk⟩ := List.mem_iff_getElem?.1 ho
        exact (hbody.sound hk).datum_ne_void hpool
      · cases hpool

theorem Encodes.opcode? {d : Dictionary} {o : Op} {i : Instruction} (h : image.Encodes d p o i)
    (ho : o.opcode ≠ .invalid) : i.opcode? = some o.opcode := by
  rw [Instruction.opcode?, h.1]
  exact Opcode.ofByte?_byte ho

/-- At an address of a block stands the code of an op: of a return if it is the last
    address, and else of an op that leads on inside of the block. -/
theorem Built.exists_op {i : Instruction} (h : image.Built) (hi : image.instruction? p = some i)
    (he : e ∈ image.dictionary.blocks) (hp : e.covers p = true) :
    ∃ d o, i.opcode? = some o.opcode ∧ image.Encodes d p o i ∧
      (∀ name address, d.address? name = some address →
        ∃ target ∈ image.dictionary.blocks, target.address = address) ∧
      (o = .ret ∧ p + 1 = e.finish ∨ o.Sound (e.finish - 1 - p) ∧ p + 1 < e.finish) := by
  obtain ⟨d, body, hbody, hsize, hholds, hcalls⟩ := h.compiled e he
  obtain ⟨hstart, hfinish⟩ := Entry.covers_iff.1 hp
  obtain ⟨k, rfl⟩ := Nat.le.dest hstart
  unfold Entry.finish at hfinish ⊢
  rw [hsize] at hfinish ⊢
  by_cases hk : k < body.length
  · have hget : (body ++ [.ret])[k]? = some body[k] := by
      rw [List.getElem?_append_left hk, List.getElem?_eq_getElem hk]
    obtain ⟨i', hi', henc⟩ := hholds.instruction? hget
    obtain rfl := Option.some.inj (hi.symm.trans hi')
    have hsound : body[k].Sound (body.length - k) := hbody.sound (List.getElem?_eq_getElem hk)
    refine ⟨d, body[k], henc.opcode? hsound.opcode_ne_invalid, henc, hcalls, .inr ⟨?_, ?_⟩⟩
    · rwa [show e.address + (body.length + 1) - 1 - (e.address + k) = body.length - k by omega]
    · omega
  · obtain rfl : k = body.length := by omega
    have hget : (body ++ [.ret])[body.length]? = some Op.ret := by simp
    obtain ⟨i', hi', henc⟩ := hholds.instruction? hget
    obtain rfl := Option.some.inj (hi.symm.trans hi')
    exact ⟨d, .ret, henc.opcode? Opcode.noConfusion, henc, hcalls, .inl ⟨rfl, rfl⟩⟩

/-- Every instruction lies in some block. -/
theorem Built.exists_covers {i : Instruction} (h : image.Built)
    (hi : image.instruction? p = some i) :
    ∃ e ∈ image.dictionary.blocks, e.covers p = true :=
  h.tiles.exists_covers (Nat.zero_le p) (Array.getElem?_eq_some_iff.1 hi).1

-- ---------------------------------------------------------------------------
-- Well-formed images
-- ---------------------------------------------------------------------------

/-- What is known of the single parts of an image. -/
structure WellFormed (image : Image) : Prop where
  /-- The blocks lie side by side from address zero to the end of the code. -/
  tiles : Tiles 0 image.dictionary.blocks image.code.size
  /-- Every address belongs to exactly one block. -/
  covered : ∀ p, p < image.code.size → image.dictionary.blocks.countP (·.covers p) = 1
  /-- Every instruction has one of the thirteen operations. -/
  decodes : ∀ p i, image.instruction? p = some i → ∃ o, o ≠ .invalid ∧ i.opcode? = some o
  /-- The returns are the last instructions of the blocks. -/
  returns : ∀ p i, image.instruction? p = some i →
    (i.opcode? = some .ret ↔ ∃ e ∈ image.dictionary.blocks, p + 1 = e.finish)
  /-- A jump leads forward, inside of its block. -/
  jumps : ∀ p i, image.instruction? p = some i →
    i.opcode? = some .jump ∨ i.opcode? = some .jumpIfNot →
    ∀ e ∈ image.dictionary.blocks, e.covers p = true → p < i.argument ∧ i.argument + 1 ≤ e.finish
  /-- A call leads to the start of a block. -/
  calls : ∀ p i, image.instruction? p = some i → i.opcode? = some .call →
    ∃ e ∈ image.dictionary.blocks, e.address = i.argument
  /-- The instructions with a constant use one constant after the other, and all of them. -/
  pool : image.poolArguments = List.range image.constants.size
  noVoid : ∀ v ∈ image.constants, v ≠ .void
  /-- The constant of a store or a fetch is a name. -/
  names : ∀ p i, image.instruction? p = some i →
    i.opcode? = some .store ∨ i.opcode? = some .fetch →
    ∃ name, image.constant? i.argument = some (.str name)

/-- An image that loading has built is well-formed. -/
theorem Built.wellFormed (h : image.Built) : image.WellFormed where
  tiles := h.tiles
  covered := fun p hp => h.tiles.countP_eq_one (Nat.zero_le p) hp
  decodes := by
    intro p i hi
    obtain ⟨e, he, hp⟩ := h.exists_covers hi
    obtain ⟨d, o, hopcode, -, -, ⟨rfl, -⟩ | ⟨hsound, -⟩⟩ := h.exists_op hi he hp
    · exact ⟨.ret, Opcode.noConfusion, hopcode⟩
    · exact ⟨o.opcode, hsound.opcode_ne_invalid, hopcode⟩
  returns := by
    intro p i hi
    constructor
    · intro hret
      obtain ⟨e, he, hp⟩ := h.exists_covers hi
      obtain ⟨d, o, hopcode, -, -, ⟨rfl, hlast⟩ | ⟨hsound, -⟩⟩ := h.exists_op hi he hp
      · exact ⟨e, he, hlast⟩
      · rw [Op.Sound, Option.some.inj (hopcode.symm.trans hret)] at hsound
        exact hsound.elim
    · rintro ⟨e, he, hlast⟩
      have hp : e.covers p = true := by
        have hsize := (h.tiles.bounds he).1
        have hfinish : e.finish = e.address + e.size := rfl
        exact Entry.covers_iff.2 ⟨by omega, by omega⟩
      obtain ⟨d, o, hopcode, -, -, ⟨rfl, -⟩ | ⟨-, hlt⟩⟩ := h.exists_op hi he hp
      · exact hopcode
      · exact absurd hlast (Nat.ne_of_lt hlt)
  jumps := by
    intro p i hi hjump e he hp
    obtain ⟨d, o, hopcode, henc, -, ⟨rfl, -⟩ | ⟨hsound, hlt⟩⟩ := h.exists_op hi he hp
    · rw [hopcode] at hjump
      rcases hjump with hjump | hjump <;> cases hjump
    · obtain ⟨-, harg⟩ := henc
      unfold Op.Sound at hsound
      rw [hopcode] at hjump
      rcases hjump with hjump | hjump
      all_goals
        rw [Option.some.inj hjump] at harg hsound
        simp only at harg hsound
        omega
  calls := by
    intro p i hi hcall
    obtain ⟨e, he, hp⟩ := h.exists_covers hi
    obtain ⟨d, o, hopcode, ⟨-, harg⟩, hcalls, -⟩ := h.exists_op hi he hp
    rw [Option.some.inj (hopcode.symm.trans hcall)] at harg
    obtain ⟨name, -, haddress⟩ := harg
    exact hcalls name i.argument haddress
  pool := h.pool
  noVoid := h.noVoid
  names := by
    intro p i hi hname
    obtain ⟨e, he, hp⟩ := h.exists_covers hi
    obtain ⟨d, o, hopcode, ⟨-, harg⟩, -, ⟨rfl, -⟩ | ⟨hsound, -⟩⟩ := h.exists_op hi he hp
    · rw [hopcode] at hname
      rcases hname with hname | hname <;> cases hname
    · rw [hopcode] at hname
      unfold Op.Sound at hsound
      rcases hname with hname | hname
      all_goals
        rw [Option.some.inj hname] at harg hsound
        obtain ⟨name, hdatum⟩ := hsound
        exact ⟨name, hdatum ▸ harg⟩

end Image

-- ---------------------------------------------------------------------------
-- Loading
-- ---------------------------------------------------------------------------

namespace Machine

/-- A load succeeds if the text can be compiled and its words can be linked. It changes
    the image and the next instruction only. -/
theorem load_eq_ok_iff {m m' : Machine} {path source : String} :
    m.load path source = .ok m' ↔
      ∃ words image ip, wordsOfSource path source = .ok words ∧
        m.image.link words = .ok (image, ip) ∧ m' = { m with image, ip } := by
  unfold load
  constructor
  · intro h
    split at h
    · cases h
    · rename_i words hwords
      split at h
      · cases h
      · rename_i image ip hlink
        cases h
        exact ⟨words, image, ip, hwords, hlink, rfl⟩
  · rintro ⟨words, image, ip, hwords, hlink, rfl⟩
    rw [hwords]
    dsimp only
    rw [hlink]

theorem load_of_link_eq_error {m : Machine} {path source : String} {words : List Word}
    {e : LinkError} (hwords : wordsOfSource path source = .ok words)
    (hlink : m.image.link words = .error e) : m.load path source = .error (.link e) := by
  rw [load, hwords]
  dsimp only
  rw [hlink]

/-- Loading links the words of the phrase that the text spells. -/
theorem exists_phrase_of_load {m m' : Machine} {path source : String}
    (h : m.load path source = .ok m') :
    ∃ p image ip, Spells path source p ∧
      m.image.link (p.words (.start path)) = .ok (image, ip) ∧ m' = { m with image, ip } := by
  obtain ⟨words, image, ip, hwords, hlink, rfl⟩ := load_eq_ok_iff.1 h
  obtain ⟨p, hspells, -, -, rfl⟩ := spells_of_wordsOfSource hwords
  exact ⟨p, image, ip, hspells, hlink, rfl⟩

/-- A load keeps an image built. -/
theorem built_of_load {m m' : Machine} {path source : String} (hm : m.image.Built)
    (h : m.load path source = .ok m') : m'.image.Built := by
  obtain ⟨p, image, ip, ⟨-, hderives⟩, hlink, rfl⟩ := exists_phrase_of_load h
  exact hm.link (fun w hw => hderives.compiled_words hw) hlink

/-- Loading adds code, and goes on inside of it. -/
theorem bounds_of_load {m m' : Machine} {path source : String} (hm : m.image.Built)
    (h : m.load path source = .ok m') :
    m.image.code.size ≤ m'.image.code.size ∧ m'.ip < m'.image.code.size := by
  obtain ⟨p, image, ip, -, hlink, rfl⟩ := exists_phrase_of_load h
  have hstart : ip = m.image.code.size + (opsOf p.definedWords).length := by
    rw [← Dictionary.nextAddress_of_tiles hm.tiles]
    exact Image.start_of_link hlink rfl
  obtain ⟨code, data, entry, hlinked, rfl, -⟩ := Image.link_eq_ok_iff.1 hlink
  have hsize : m.image.code.size + (opsOf p.definedWords).length + (p.code.length + 1) =
      (m.image.code ++ code.toArray).size := by
    simp [hlinked.length_code, Phrase.words, Nat.add_assoc]
  constructor
  · exact Nat.le_trans (Nat.le_add_right _ _) (Nat.le_of_eq (Array.size_append ..).symm)
  · rw [hstart]
    exact Nat.lt_of_lt_of_eq (Nat.lt_add_of_pos_right (Nat.succ_pos _)) hsize

/-- Tries to load a source text with its path. A text that can not be loaded changes
    nothing. -/
def tryLoad (m : Machine) (text : String × String) : Machine :=
  match m.load text.1 text.2 with
  | .ok m' => m'
  | .error _ => m

theorem load_eq_ok_tryLoad {m : Machine} {path source : String}
    (h : (m.load path source).isOk = true) :
    m.load path source = .ok (m.tryLoad (path, source)) := by
  unfold tryLoad
  cases hload : m.load path source with
  | ok m' => rfl
  | error e =>
    rw [hload] at h
    cases h

theorem built_tryLoad {m : Machine} (text : String × String) (h : m.image.Built) :
    (m.tryLoad text).image.Built := by
  unfold tryLoad
  split
  · rename_i m' hload
    exact built_of_load h hload
  · exact h

/-- Whatever texts a new machine tries to load, its image is well-formed. -/
theorem wellFormed_image_of_loads (texts : List (String × String)) :
    (texts.foldl tryLoad {}).image.WellFormed := by
  apply Image.Built.wellFormed
  have hstart : ({} : Machine).image.Built := Image.built_empty
  generalize ({} : Machine) = m at hstart ⊢
  induction texts generalizing m with
  | nil => exact hstart
  | cons text texts ih => exact ih (m.tryLoad text) (built_tryLoad text hstart)

end Machine

end Forth
