-- SUMMARY: Listings: their lines, and what they tell about code, constants and blocks.
import Forth.Image.Listing
import Forth.Proofs.Fields
import Forth.Proofs.Frames
import Forth.Proofs.Isolation
import Forth.Proofs.Places

/-!
# What a listing tells

Every line of a listing is a heading or shows an instruction, and the two can be told
apart: a heading has no blank, or it is that of top-level code. The fields of a line
tell the operation, its argument and its constant. As an image that was built by
loading refers to each of its constants, and as its blocks lie side by side, the
listing of such an image determines all but the places of its definitions.
-/

namespace Forth

-- ---------------------------------------------------------------------------
-- Instructions
-- ---------------------------------------------------------------------------

namespace Opcode

theorem solid_name (o : Opcode) : Text.Solid o.name := by
  have hvisible : o.name.toList.all (!Text.isBlank ·) = true := by cases o <;> decide +kernel
  refine ⟨by cases o <;> decide +kernel, fun c hc => ?_⟩
  simpa using List.all_eq_true.1 hvisible c hc

/-- No two operations have the same name. -/
theorem name_injective {o o' : Opcode} (h : o.name = o'.name) : o = o' := by
  rw [← Option.some.injEq, ← ofName?_name, h, ofName?_name]

end Opcode

namespace Image

variable {image : Image} {i : Instruction} {o : Opcode}

/-- What a listing says about the argument of an instruction. -/
def remark? (image : Image) (i : Instruction) (o : Opcode) : Option String :=
  if o.usesPool then some (((image.constant? i.argument).map (·.renderQuoted)).getD "?")
  else if o = .call then some ((image.wordName? i.argument).getD "?")
  else (Primitive.for? o i.argument).map describePrimitive

/-- The last column of a line, with the blanks in front of it. -/
def remarkColumn (argument : Nat) : Option String → List Char
  | none => []
  | some remark => List.replicate (6 - (toString argument).length) ' ' ++ ' ' :: remark.toList

/-- A line has the name of the operation, its argument, and perhaps a remark, in columns. -/
theorem toList_listInstruction (ho : i.opcode? = some o) :
    (image.listInstruction i).toList =
      o.name.toList ++ (List.replicate (11 - o.name.length) ' ' ++
        ' ' :: ((toString i.argument).toList ++ remarkColumn i.argument (image.remark? i o))) := by
  have hself : ∀ s : String, toString s = s := fun s => rfl
  have hcolumns : ∀ remark, (columns o i.argument remark).toList =
      o.name.toList ++ (List.replicate (11 - o.name.length) ' ' ++
        ' ' :: ((toString i.argument).toList ++ remarkColumn i.argument (some remark))) := by
    intro remark
    simp [columns, Text.padRight, remarkColumn, hself]
  rw [listInstruction, show Opcode.ofByte? i.byte = some o from ho]
  dsimp only
  split
  · exact hcolumns _
  · exact hcolumns _
  · exact hcolumns _
  · exact hcolumns _
  · rename_i hpush hstore hfetch hcall
    have hremark : image.remark? i o = (Primitive.for? o i.argument).map describePrimitive := by
      rw [remark?, if_neg, if_neg hcall]
      cases o <;> simp_all [Opcode.usesPool]
    rw [hremark]
    split
    · rename_i p hp
      rw [hp]
      exact hcolumns _
    · rename_i hp
      rw [hp]
      simp [Text.padRight, remarkColumn, hself]

theorem isBlank_head_padding (n : Nat) (cs : List Char) :
    ∀ c ∈ (List.replicate n ' ' ++ ' ' :: cs).head?, Text.isBlank c = true := by
  cases n <;> simp [List.replicate_succ, Text.isBlank_space]

theorem isBlank_head_remarkColumn (argument : Nat) (remark : Option String) :
    ∀ c ∈ (remarkColumn argument remark).head?, Text.isBlank c = true := by
  cases remark with
  | none => simp [remarkColumn]
  | some remark => exact isBlank_head_padding _ _

/-- The text of an instruction tells the operation, the argument and the remark. -/
theorem eq_of_listInstruction {image' : Image} {i' : Instruction} {o' : Opcode}
    (ho : i.opcode? = some o) (ho' : i'.opcode? = some o')
    (h : image.listInstruction i = image'.listInstruction i') :
    i = i' ∧ remarkColumn i.argument (image.remark? i o) =
      remarkColumn i.argument (image'.remark? i o) := by
  rw [← String.toList_inj, toList_listInstruction ho, toList_listInstruction ho'] at h
  obtain ⟨hname, hrest⟩ := o.solid_name.append_inj o'.solid_name (isBlank_head_padding _ _)
    (isBlank_head_padding _ _) h
  obtain rfl := Opcode.name_injective hname
  obtain ⟨hargument, hremark⟩ := (Text.solid_toString _).append_inj (Text.solid_toString _)
    (isBlank_head_remarkColumn _ _) (isBlank_head_remarkColumn _ _)
    (List.cons.inj (List.append_cancel_left hrest)).2
  have hi : i = i' := by
    apply Instruction.eq_of_byte_of_argument
    · rw [Opcode.eq_byte_of_ofByte? ho, Opcode.eq_byte_of_ofByte? ho']
    · exact Text.toString_injective hargument
  subst hi
  exact ⟨rfl, hremark⟩

-- ---------------------------------------------------------------------------
-- Names
-- ---------------------------------------------------------------------------

/-- What the headings and the calls of a listing show has no blank, apart from the name of
    top-level code. -/
def Named (image : Image) : Prop :=
  ∀ e ∈ image.dictionary.blocks, e.name = Word.topLevel ∨ Text.Solid e.name

theorem tidy_name {name : String} (h : name = Word.topLevel ∨ Text.Solid name) :
    Text.Tidy name.toList := by
  rcases h with rfl | hsolid
  · exact ⟨by decide +kernel, 'e', by decide +kernel, rfl⟩
  · exact hsolid.tidy

/-- The description of a primitive word is tidy. -/
theorem tidy_describePrimitive {p : Primitive} (h : p ∈ Primitive.all) :
    Text.Tidy (describePrimitive p).toList := by
  have hall : ∀ p ∈ Primitive.all, '\n' ∉ (describePrimitive p).toList ∧
      (describePrimitive p).toList.getLast? = some '.' := by decide +kernel
  exact ⟨(hall p h).1, '.', (hall p h).2, rfl⟩

/-- The remark of a line is tidy. -/
theorem Named.tidy_remark {remark : String} (h : image.Named)
    (hremark : image.remark? i o = some remark) : Text.Tidy remark.toList := by
  have hunknown : Text.Tidy "?".toList := ⟨by decide, '?', rfl, rfl⟩
  unfold remark? at hremark
  split at hremark
  · obtain rfl := Option.some.inj hremark
    cases hv : image.constant? i.argument with
    | none => exact hunknown
    | some v => exact v.tidy_renderQuoted
  · split at hremark
    · obtain rfl := Option.some.inj hremark
      cases hname : image.wordName? i.argument with
      | none => exact hunknown
      | some name =>
        obtain ⟨e, he, rfl⟩ := Option.map_eq_some_iff.1 hname
        have hfind := (Option.filter_eq_some_iff.1 he).1
        exact tidy_name (h e (List.mem_reverse.2 (List.mem_of_find?_eq_some hfind)))
    · obtain ⟨p, hp, rfl⟩ := Option.map_eq_some_iff.1 hremark
      exact tidy_describePrimitive (List.mem_of_find?_eq_some hp)

/-- The line of an instruction is tidy. -/
theorem Named.tidy_listInstruction (h : image.Named) (ho : i.opcode? = some o) :
    Text.Tidy (image.listInstruction i).toList := by
  have hargument := (Text.solid_toString i.argument).tidy
  rw [toList_listInstruction ho]
  refine .append (o.solid_name.notMem rfl) (.append (by simp) (.cons (by decide) ?_))
  cases hremark : image.remark? i o with
  | none => simpa [remarkColumn] using hargument
  | some remark =>
    exact .append hargument.inLine (.append (by simp) (.cons (by decide) (h.tidy_remark hremark)))

end Image

/-- A lexeme is not empty and has no blank. -/
theorem Cursor.solid_of_mem_lexemes {c : Cursor} {x : Lexeme} (h : x ∈ c.lexemes.1) :
    Text.Solid x.text where
  ne_nil := by
    have hrun : x.text ∈ Text.runs c.rest := text_lexemes c ▸ List.mem_map_of_mem h
    obtain ⟨w, hw, htext⟩ := List.mem_map.1 hrun
    rw [← htext, String.toList_ofList]
    simpa using (List.mem_filter.1 hw).2
  visible := isBlank_of_mem_lexemes h

/-- The name of a definition has no blank. -/
theorem Spells.solid_name {path source : String} {p : Phrase} {d : Definition}
    (h : Spells path source p) (hd : d ∈ p.definitions) : Text.Solid d.name := by
  obtain ⟨opening, title, hpart, -, -, htitle⟩ := h.2.opensIn_of_mem_definitions hd
  have hmem := hpart.subset (List.mem_cons_of_mem opening (List.mem_singleton_self title))
  obtain ⟨x, hx, rfl⟩ := List.mem_map.1 hmem
  rw [← Token.Payload.ofText_eq_identifier htitle]
  exact Cursor.solid_of_mem_lexemes (mem_of_mem_outsideComments hx)

theorem exists_word_of_mem_entriesFrom {e : Entry} {address : Nat} {ws : List Word}
    (h : e ∈ entriesFrom address ws) : ∃ w ∈ ws, w.name = e.name := by
  induction ws generalizing address with
  | nil => cases h
  | cons w ws ih =>
    rcases List.mem_cons.1 h with rfl | h
    · exact ⟨w, List.mem_cons_self, rfl⟩
    · obtain ⟨v, hv, hname⟩ := ih h
      exact ⟨v, List.mem_cons_of_mem w hv, hname⟩

namespace Machine

variable {m : Machine}

/-- Loading a text adds no name with a blank, apart from that of top-level code. -/
theorem named_of_load {m' : Machine} {path source : String} (hm : m.image.Named)
    (h : m.load path source = .ok m') : m'.image.Named := by
  obtain ⟨p, image, ip, hspells, hlink, rfl⟩ := exists_phrase_of_load h
  obtain ⟨code, data, entry, -, rfl, -⟩ := Image.link_eq_ok_iff.1 hlink
  intro e he
  rcases List.mem_append.1 (Image.blocks_place _ _ ▸ he) with he | he
  · exact hm e he
  · obtain ⟨w, hw, hname⟩ := exists_word_of_mem_entriesFrom he
    rw [← hname]
    rcases List.mem_append.1 hw with hw | hw
    · obtain ⟨d, hd, rfl⟩ := List.mem_map.1 hw
      exact .inr (hspells.solid_name hd)
    · obtain rfl := List.mem_singleton.1 hw
      exact .inl rfl

/-- What the texts of a machine make of its image. -/
theorem listable_foldl_tryLoad (texts : List (String × String)) (hbuilt : m.image.Built)
    (hnamed : m.image.Named) :
    (texts.foldl tryLoad m).image.Built ∧ (texts.foldl tryLoad m).image.Named := by
  induction texts generalizing m with
  | nil => exact ⟨hbuilt, hnamed⟩
  | cons text texts ih =>
    refine ih (built_tryLoad text hbuilt) ?_
    unfold tryLoad
    split
    · rename_i m' hload
      exact named_of_load hnamed hload
    · exact hnamed

end Machine

-- ---------------------------------------------------------------------------
-- Blocks and their first addresses
-- ---------------------------------------------------------------------------

namespace Tiles

variable {start stop p : Nat} {e : Entry} {es es' : List Entry}

theorem find?_address_of_lt (h : Tiles start es stop) (hp : p < start) :
    es.find? (·.address = p) = none := by
  rw [List.find?_eq_none]
  intro e he hp'
  have hle := h.le_address he
  have heq : e.address = p := of_decide_eq_true hp'
  omega

theorem find?_address_cons_of_lt (h : Tiles start (e :: es) stop) (hp : start < p) :
    (e :: es).find? (·.address = p) = es.find? (·.address = p) := by
  apply List.find?_cons_of_neg
  simp only [decide_eq_true_eq]
  exact fun heq => Nat.ne_of_lt hp (h.1.symm.trans heq)

/-- A block is found at its first address, and no block at the others. -/
theorem find?_address (h : Tiles start es stop) (he : e ∈ es) (hp : e.covers p = true) :
    es.find? (·.address = p) = if e.address = p then some e else none := by
  obtain ⟨hle, hlt⟩ := Entry.covers_iff.1 hp
  induction es generalizing start with
  | nil => cases he
  | cons e' es ih =>
    rcases List.mem_cons.1 he with rfl | he
    · split
      · rename_i heq
        exact List.find?_cons_of_pos (decide_eq_true heq)
      · rename_i hne
        have hstart : start < p := by
          have haddress := h.1
          omega
        rw [h.find?_address_cons_of_lt hstart, h.2.2.find?_address_of_lt hlt]
    · have hstart : start < p := by
        have hafter := h.2.2.le_address he
        have hsize := h.2.1
        have haddress := h.1
        have hfinish : e'.finish = e'.address + e'.size := rfl
        omega
      rw [h.find?_address_cons_of_lt hstart, ih h.2.2 he]

/-- The blocks are found one after the other at the addresses. -/
theorem flatMap_find?_address (h : Tiles start es stop) :
    (List.range' start (stop - start)).flatMap (fun p => (es.find? (·.address = p)).toList) =
      es := by
  induction es generalizing start with
  | nil =>
    obtain rfl : start = stop := h
    simp
  | cons e es ih =>
    have hle := h.2.2.le
    obtain ⟨k, hk⟩ : ∃ k, e.size = k + 1 := Nat.exists_eq_succ_of_ne_zero (Nat.ne_of_gt h.2.1)
    have hfinish : e.finish = start + 1 + k := by
      rw [Entry.finish, h.1, hk]
      omega
    have hsplit : List.range' start (stop - start) =
        start :: (List.range' (start + 1) k ++ List.range' e.finish (stop - e.finish)) := by
      rw [hfinish, List.range'_append_1, ← List.range'_succ]
      congr 1
      omega
    have hinside : (List.range' (start + 1) k).flatMap
        (fun p => ((e :: es).find? (·.address = p)).toList) = [] := by
      rw [List.flatMap_eq_nil_iff]
      intro p hp
      obtain ⟨hlow, hhigh⟩ := List.mem_range'_1.1 hp
      rw [h.find?_address_cons_of_lt hlow, h.2.2.find?_address_of_lt (hfinish ▸ hhigh)]
      rfl
    have hbehind : (List.range' e.finish (stop - e.finish)).flatMap
        (fun p => ((e :: es).find? (·.address = p)).toList) = es := by
      refine (List.flatMap_congr fun p hp => ?_).trans (ih h.2.2)
      have hlow := (List.mem_range'_1.1 hp).1
      rw [h.find?_address_cons_of_lt (by omega)]
    have hhead : (e :: es).find? (·.address = start) = some e :=
      List.find?_cons_of_pos (decide_eq_true h.1)
    rw [hsplit, List.flatMap_cons, List.flatMap_append, hinside, hbehind, hhead]
    rfl

/-- Blocks that start at the same addresses and end at the same one cover the same range. -/
theorem start_eq {start' : Nat} (h : Tiles start es stop) (h' : Tiles start' es' stop)
    (heq : es.map (·.address) = es'.map (·.address)) : start = start' := by
  cases es with
  | nil =>
    obtain rfl := List.map_eq_nil_iff.1 heq.symm
    exact Eq.trans h (Eq.symm h')
  | cons e es =>
    obtain ⟨e', es'', rfl, haddress, -⟩ := List.map_eq_cons_iff.1 heq.symm
    exact h.1.symm.trans (haddress.symm.trans h'.1)

/-- Where the blocks start tells how long they are. -/
theorem eq_of_starts (h : Tiles start es stop) (h' : Tiles start es' stop)
    (heq : es.map (fun e => (e.name, e.address)) = es'.map fun e => (e.name, e.address)) :
    es.map (fun e => (e.name, e.address, e.size)) =
      es'.map fun e => (e.name, e.address, e.size) := by
  induction es generalizing start es' with
  | nil =>
    obtain rfl := List.map_eq_nil_iff.1 heq.symm
    rfl
  | cons e es ih =>
    obtain ⟨e', es'', rfl, hhead, hrest⟩ := List.map_eq_cons_iff.1 heq.symm
    obtain ⟨hname, haddress⟩ := Prod.mk.inj hhead
    have hfinish : e.finish = e'.finish := by
      apply h.2.2.start_eq h'.2.2
      simpa [Function.comp_def] using congrArg (List.map Prod.snd) hrest.symm
    have hsize : e.size = e'.size := by
      rw [Entry.finish, Entry.finish, haddress] at hfinish
      omega
    rw [List.map_cons, List.map_cons, hname, haddress, hsize,
      ih h.2.2 (hfinish ▸ h'.2.2) hrest.symm]

end Tiles

-- ---------------------------------------------------------------------------
-- Lines
-- ---------------------------------------------------------------------------

namespace Image

variable {image : Image} {p : Nat}

def headingAt? (image : Image) (p : Nat) : Option String :=
  (image.dictionary.blocks.find? (·.address = p)).map (·.name ++ ":")

def lineAt (image : Image) (p : Nat) : String :=
  Text.padLeft 6 (toString p) ++ ": " ++
    ((image.instruction? p).map image.listInstruction).getD ""

def linesAt (image : Image) (p : Nat) : List String :=
  (image.headingAt? p).toList ++ [image.lineAt p]

/-- The heading at an address is that of the block that starts there, if there is one. -/
theorem Built.heading_eq (h : image.Built) (hp : p < image.code.size) :
    image.heading p = String.join ((image.headingAt? p).toList.map (· ++ "\n")) := by
  obtain ⟨e, he, hcovers⟩ := h.tiles.exists_covers (Nat.zero_le p) hp
  unfold heading headingAt?
  rw [h.entryAt?_of_covers he hcovers, h.tiles.find?_address he hcovers]
  dsimp only
  split
  · show e.name ++ ":\n" = _
    rw [← String.toList_inj]
    simp
  · rfl

theorem Named.line_eq {i : Instruction} {o : Opcode} (h : image.Named)
    (hi : image.instruction? p = some i) (ho : i.opcode? = some o) :
    image.line p i = image.lineAt p ++ "\n" := by
  rw [line, lineAt, hi, (h.tidy_listInstruction ho).trimEnd_eq]
  rfl

theorem Named.notMem_lineAt {i : Instruction} {o : Opcode} (h : image.Named)
    (hi : image.instruction? p = some i) (ho : i.opcode? = some o) :
    '\n' ∉ (image.lineAt p).toList := by
  have hdigits := (Text.solid_toString p).notMem (c := '\n') rfl
  have htext := (h.tidy_listInstruction ho).inLine
  rw [lineAt, hi]
  simpa [Text.padLeft, htext] using hdigits

theorem Named.notMem_headingAt? {heading : String} (h : image.Named)
    (hheading : image.headingAt? p = some heading) : '\n' ∉ heading.toList := by
  obtain ⟨e, he, rfl⟩ := Option.map_eq_some_iff.1 hheading
  have hname := (tidy_name (h e (List.mem_of_find?_eq_some he))).inLine
  simp [hname]

theorem WellFormed.exists_opcode (h : image.WellFormed) (hp : p < image.code.size) :
    ∃ i o, image.instruction? p = some i ∧ i.opcode? = some o := by
  have hi : image.instruction? p = some image.code[p] := Array.getElem?_eq_getElem hp
  obtain ⟨o, -, ho⟩ := h.decodes p _ hi
  exact ⟨_, o, hi, ho⟩

theorem Built.listing_eq (h : image.Built) (hnamed : image.Named) :
    image.listing =
      String.join (((List.range image.code.size).flatMap image.linesAt).map (· ++ "\n")) := by
  rw [← Text.join_map_join, listing]
  congr 1
  refine List.ext_getElem (by simp) fun p hp _ => ?_
  have hlt : p < image.code.size := by simpa using hp
  obtain ⟨i, o, hi, ho⟩ := h.wellFormed.exists_opcode hlt
  have hcode : image.code[p] = i := by
    simpa [instruction?, hlt] using hi
  simp only [List.getElem_map, List.getElem_zipIdx, Array.getElem_toList, List.getElem_range,
    Nat.zero_add, hcode, h.heading_eq hlt, hnamed.line_eq hi ho, linesAt]
  simp

/-- The lines of a listing are those of all addresses, in order. -/
theorem Built.lines_listing (h : image.Built) (hnamed : image.Named) :
    Text.lines image.listing = (List.range image.code.size).flatMap image.linesAt := by
  rw [h.listing_eq hnamed]
  apply Text.lines_join
  intro l hl
  obtain ⟨p, hp, hl⟩ := List.mem_flatMap.1 hl
  obtain ⟨i, o, hi, ho⟩ := h.wellFormed.exists_opcode (List.mem_range.1 hp)
  rcases List.mem_append.1 hl with hl | hl
  · exact hnamed.notMem_headingAt? (Option.mem_toList.1 hl)
  · exact List.mem_singleton.1 hl ▸ hnamed.notMem_lineAt hi ho

/-- A listing has one line for each instruction and one for each block. -/
theorem Built.length_lines_listing (h : image.Built) (hnamed : image.Named) :
    (Text.lines image.listing).length = image.code.size + image.dictionary.blocks.length := by
  have hlines : ∀ ps : List Nat, (ps.flatMap image.linesAt).length = ps.length +
      (ps.flatMap fun p => (image.dictionary.blocks.find? (·.address = p)).toList).length := by
    intro ps
    induction ps with
    | nil => rfl
    | cons p ps ih =>
      have hheading : (image.headingAt? p).toList.length =
          (image.dictionary.blocks.find? (·.address = p)).toList.length := by
        rw [headingAt?, Option.toList_map, List.length_map]
      simp only [List.flatMap_cons, List.length_append, linesAt, List.length_cons,
        List.length_nil, ih, hheading]
      omega
  have hblocks := h.tiles.flatMap_find?_address
  rw [Nat.sub_zero, ← List.range_eq_range'] at hblocks
  rw [h.lines_listing hnamed, hlines, hblocks, List.length_range]

/-- The listing consists of lines, one for each address and one for each block. The lines
    of the addresses are in order, and the name of a block stands directly in front of the
    line of its first address. -/
structure Listed (image : Image) : Prop where
  joined : image.listing = String.join ((Text.lines image.listing).map (· ++ "\n"))
  length : (Text.lines image.listing).length = image.code.size + image.dictionary.blocks.length
  lines : ∃ text : Nat → String, Text.lines image.listing =
    (List.range image.code.size).flatMap fun p =>
      ((image.dictionary.blocks.find? (·.address = p)).map (·.name ++ ":")).toList ++
        [Text.padLeft 6 (toString p) ++ ": " ++ text p]

-- ---------------------------------------------------------------------------
-- What a listing tells
-- ---------------------------------------------------------------------------

def isHeading (l : String) : Bool :=
  l = Word.topLevel ++ ":" || !l.toList.contains ' '

theorem Named.isHeading_headingAt? {heading : String} (h : image.Named)
    (hheading : image.headingAt? p = some heading) : isHeading heading = true := by
  obtain ⟨e, he, rfl⟩ := Option.map_eq_some_iff.1 hheading
  rcases h e (List.mem_of_find?_eq_some he) with hname | hsolid
  · simp [isHeading, hname]
  · have hspace := hsolid.notMem Text.isBlank_space
    simp [isHeading, hspace]

/-- The line of an instruction is no heading. -/
theorem isHeading_lineAt (image : Image) (p : Nat) : isHeading (image.lineAt p) = false := by
  have hspace : ' ' ∈ (image.lineAt p).toList := by simp [lineAt]
  have hhead : ∀ c ∈ (image.lineAt p).toList.head?, c = ' ' ∨ c.isDigit = true := by
    intro c hc
    obtain ⟨d, ds, hd⟩ := List.exists_cons_of_ne_nil (Text.solid_toString p).ne_nil
    simp only [lineAt, Text.padLeft, String.toList_append, String.toList_ofList, hd] at hc
    cases hwidth : 6 - (toString p).length with
    | zero =>
      rw [hwidth] at hc
      obtain rfl : d = c := Option.some.inj hc
      exact .inr (Text.isDigit_of_mem_toString (hd ▸ List.mem_cons_self))
    | succ k =>
      rw [hwidth] at hc
      exact .inl (Option.some.inj hc).symm
  have htop : image.lineAt p ≠ Word.topLevel ++ ":" := by
    intro heq
    rw [heq] at hhead
    rcases hhead 't' (by decide +kernel) with h | h <;> cases h
  simp [isHeading, hspace, htop]

/-- Equal listings have the same heading and the same line at each address. -/
theorem lines_eq_of_listing {image' : Image} (h : image.Built) (hnamed : image.Named)
    (h' : image'.Built) (hnamed' : image'.Named) (heq : image.listing = image'.listing) :
    image.code.size = image'.code.size ∧ ∀ p < image.code.size,
      image.headingAt? p = image'.headingAt? p ∧ image.lineAt p = image'.lineAt p := by
  have hgroups : ∀ image : Image, image.Named →
      ∀ g ∈ (List.range image.code.size).map fun p => ((image.headingAt? p).toList, image.lineAt p),
        (∀ l ∈ g.1, isHeading l = true) ∧ isHeading g.2 = false := by
    intro image hnamed g hg
    obtain ⟨p, -, rfl⟩ := List.mem_map.1 hg
    refine ⟨?_, isHeading_lineAt image p⟩
    exact fun l hl => hnamed.isHeading_headingAt? (Option.mem_toList.1 hl)
  have hlines := congrArg Text.lines heq
  rw [h.lines_listing hnamed, h'.lines_listing hnamed'] at hlines
  have hmap := Text.eq_of_flatMap_groups (hgroups image hnamed) (hgroups image' hnamed')
    (by rw [List.flatMap_map, List.flatMap_map]; exact hlines)
  have hsize : image.code.size = image'.code.size := by
    simpa using congrArg List.length hmap
  refine ⟨hsize, fun p hp => ?_⟩
  rw [← hsize, List.map_inj_left] at hmap
  obtain ⟨hheading, hline⟩ := Prod.mk.inj (hmap p (List.mem_range.2 hp))
  refine ⟨?_, hline⟩
  rw [← Option.head?_toList (o := image.headingAt? p), hheading, Option.head?_toList]

/-- The blocks start where the listing has headings, with the names that these show. -/
theorem Built.starts_eq (h : image.Built) :
    image.dictionary.blocks.map (fun e => (e.name ++ ":", e.address)) =
      (List.range image.code.size).flatMap fun p => (image.headingAt? p).toList.map (·, p) := by
  have hblocks := h.tiles.flatMap_find?_address
  rw [Nat.sub_zero, ← List.range_eq_range'] at hblocks
  nth_rewrite 1 [← hblocks]
  rw [List.map_flatMap]
  refine List.flatMap_congr fun p _ => ?_
  rw [headingAt?]
  cases he : image.dictionary.blocks.find? (·.address = p) with
  | none => rfl
  | some e =>
    obtain rfl : e.address = p := by simpa using List.find?_some he
    rfl

/-- Equal lines show the same instruction, and also the same constant if it has one. -/
theorem instruction?_eq_of_lineAt {image' : Image} (h : image.WellFormed) (h' : image'.WellFormed)
    (hp : p < image.code.size) (hp' : p < image'.code.size)
    (heq : image.lineAt p = image'.lineAt p) :
    ∃ i, image.instruction? p = some i ∧ image'.instruction? p = some i ∧
      (i.usesPool = true → image.constant? i.argument = image'.constant? i.argument) := by
  obtain ⟨i, o, hi, ho⟩ := h.exists_opcode hp
  obtain ⟨i', o', hi', ho'⟩ := h'.exists_opcode hp'
  rw [lineAt, lineAt, hi, hi', String.append_right_inj] at heq
  obtain ⟨rfl, hremark⟩ := eq_of_listInstruction ho ho' heq
  refine ⟨i, hi, hi', fun huses => ?_⟩
  have hpool : o.usesPool = true := by simpa [Instruction.usesPool, ho] using huses
  obtain ⟨v, hv⟩ := h.exists_constant hi huses
  obtain ⟨w, hw⟩ := h'.exists_constant hi' huses
  simp only [remark?, hpool, if_true, remarkColumn, hv, hw, Option.map_some, Option.getD_some,
    List.append_cancel_left_eq, List.cons.injEq, true_and, String.toList_inj] at hremark
  rw [hv, hw, Value.eq_of_renderQuoted (h.noVoid v (Array.mem_of_getElem? hv))
    (h'.noVoid w (Array.mem_of_getElem? hw)) hremark]

/-- Images with the same listing agree in all but the places of the definitions. -/
theorem agrees_of_listing {image' : Image} (h : image.Built) (hnamed : image.Named)
    (h' : image'.Built) (hnamed' : image'.Named) (heq : image.listing = image'.listing) :
    image.Agrees image' := by
  obtain ⟨hsize, hlines⟩ := lines_eq_of_listing h hnamed h' hnamed' heq
  have hinstruction : ∀ p < image.code.size, ∃ i, image.instruction? p = some i ∧
      image'.instruction? p = some i ∧
      (i.usesPool = true → image.constant? i.argument = image'.constant? i.argument) :=
    fun p hp => instruction?_eq_of_lineAt h.wellFormed h'.wellFormed hp (hsize ▸ hp) (hlines p hp).2
  have hcode : image.code = image'.code := by
    refine Array.ext hsize fun p hp hp' => ?_
    obtain ⟨i, hi, hi', -⟩ := hinstruction p hp
    exact (Array.getElem_eq_iff.2 hi).trans (Array.getElem_eq_iff.2 hi').symm
  have hpool : image.constants.size = image'.constants.size := by
    have hranges : List.range image.constants.size = List.range image'.constants.size := by
      rw [← h.pool, ← h'.pool, poolArguments, poolArguments, hcode]
    simpa using congrArg List.length hranges
  refine ⟨hcode, ?_, ?_⟩
  · refine Array.ext hpool fun k hk hk' => ?_
    -- every constant is the argument of an instruction, and its line shows it
    have hmem : k ∈ image.poolArguments := h.pool ▸ List.mem_range.2 hk
    obtain ⟨i, hi, rfl⟩ := List.mem_map.1 hmem
    obtain ⟨hmemi, huses⟩ := List.mem_filter.1 hi
    obtain ⟨p, hp, hpi⟩ := List.getElem_of_mem hmemi
    obtain ⟨j, hj, -, hconstant⟩ := hinstruction p (by simpa using hp)
    obtain rfl : j = i := by rw [← Array.getElem_eq_iff.2 hj, ← hpi, Array.getElem_toList]
    exact Option.some.inj ((Array.getElem?_eq_getElem hk).symm.trans
      ((hconstant huses).trans (Array.getElem?_eq_getElem hk')))
  · apply h.tiles.eq_of_starts (hsize ▸ h'.tiles)
    have hstarts : image.dictionary.blocks.map (fun e => (e.name ++ ":", e.address)) =
        image'.dictionary.blocks.map fun e => (e.name ++ ":", e.address) := by
      rw [h.starts_eq, h'.starts_eq, ← hsize]
      exact List.flatMap_congr fun p hp => by rw [(hlines p (List.mem_range.1 hp)).1]
    have hcolon : ∀ s t : String × Nat, (s.1 ++ ":", s.2) = (t.1 ++ ":", t.2) → s = t :=
      fun s t hst => Prod.ext ((String.append_left_inj ":").1 (Prod.mk.inj hst).1)
        (Prod.mk.inj hst).2
    apply (List.map_inj_right hcolon).1
    rw [List.map_map, List.map_map]
    exact hstarts

end Image

namespace Machine

/-- The listing of an image that loading built determines all but the places of the
    definitions. It has a line for each address, in the order of the addresses, and in front
    of the first line of each block a line with the name of the block, and no other lines. -/
theorem agrees_of_listing_of_loads (texts texts' : List (String × String)) :
    ((texts.foldl tryLoad {}).image.listing = (texts'.foldl tryLoad {}).image.listing →
      (texts.foldl tryLoad {}).image.Agrees (texts'.foldl tryLoad {}).image) ∧
    (texts.foldl tryLoad {}).image.Listed := by
  have hnew : ({} : Machine).image.Named := fun e he => by cases he
  obtain ⟨hbuilt, hnamed⟩ := listable_foldl_tryLoad texts Image.built_empty hnew
  obtain ⟨hbuilt', hnamed'⟩ := listable_foldl_tryLoad texts' Image.built_empty hnew
  refine ⟨Image.agrees_of_listing hbuilt hnamed hbuilt' hnamed', ?_,
    hbuilt.length_lines_listing hnamed, _, hbuilt.lines_listing hnamed⟩
  rw [hbuilt.lines_listing hnamed]
  exact hbuilt.listing_eq hnamed

end Machine

end Forth
