-- SUMMARY: Splitting: loading a library and then its program is loading both as one text.
import Forth.Proofs.Binding
import Forth.Proofs.Places
import Forth.Proofs.Relocation

/-!
# Splitting

A text that consists of definitions can be put in front of another text. As one text
they become the same code as they do one after the other, except that the library has
no top-level code of its own any more: its return is left out, and all code behind it
stands one address earlier. So both machines run in step, if no definition of the
program captures a name that the library calls.
-/

namespace Forth

-- ---------------------------------------------------------------------------
-- Joined texts
-- ---------------------------------------------------------------------------

namespace Phrase

/-- The statements of one phrase, and then those of another one. -/
def append : Phrase → Phrase → Phrase
  | done, q => q
  | simple s rest, q => simple s (rest.append q)
  | call name rest, q => call name (rest.append q)
  | ifThen yes rest, q => ifThen yes (rest.append q)
  | ifThenElse yes no rest, q => ifThenElse yes no (rest.append q)
  | definition l name body rest, q => definition l name body (rest.append q)

theorem code_append (p q : Phrase) : (p.append q).code = p.code ++ q.code := by
  induction p with
  | done => rfl
  | simple s rest ih => simp [append, code, ih]
  | call name rest ih => simp [append, code, ih]
  | ifThen yes rest _ ihrest => simp [append, code, ihrest]
  | ifThenElse yes no rest _ _ ihrest => simp [append, code, ihrest]
  | definition l name body rest _ ihrest => simp [append, code, ihrest]

theorem definitions_append (p q : Phrase) :
    (p.append q).definitions = p.definitions ++ q.definitions := by
  induction p with
  | done => rfl
  | simple s rest ih => simp [append, definitions, ih]
  | call name rest ih => simp [append, definitions, ih]
  | ifThen yes rest _ ihrest => simp [append, definitions, ihrest]
  | ifThenElse yes no rest _ _ ihrest => simp [append, definitions, ihrest]
  | definition l name body rest _ ihrest => simp [append, definitions, ihrest]

theorem definedWords_append (p q : Phrase) :
    (p.append q).definedWords = p.definedWords ++ q.definedWords := by
  rw [definedWords, definitions_append, List.map_append]
  rfl

/-- Two phrases one after the other are as deep as the deeper one. -/
theorem depth_append (p q : Phrase) : (p.append q).depth = max p.depth q.depth := by
  induction p with
  | done => simp [append, depth]
  | simple s rest ih => simp [append, depth, ih]
  | call name rest ih => simp [append, depth, ih]
  | ifThen yes rest _ ihrest => simp [append, depth, ihrest, Nat.max_assoc]
  | ifThenElse yes no rest _ _ ihrest => simp [append, depth, ihrest, Nat.max_assoc]
  | definition l name body rest _ ihrest => simp [append, depth, ihrest, Nat.max_assoc]

theorem Fits.append {p q : Phrase} (hp : p.Fits) (hq : q.Fits) : (p.append q).Fits := by
  rw [Fits, code_append, definedWords_append]
  constructor
  · exact List.forall_mem_append.2 ⟨hp.1, hq.1⟩
  · exact List.forall_mem_append.2 ⟨hp.2, hq.2⟩

end Phrase

/-- Definitions can be put in front of any phrase. -/
theorem Derives.append {inside : Bool} {us vs : List Token} {p q : Phrase}
    (hp : Derives inside us p) (hcode : p.code = []) (hq : Derives inside vs q) :
    Derives inside (us ++ vs) (p.append q) := by
  induction hp with
  | done => exact hq
  | definition hopening htitle hbody hclosing _ _ ihrest =>
    have hrest := Derives.definition hopening htitle hbody hclosing (ihrest hcode hq)
    simpa [Phrase.append] using hrest
  | _ => cases hcode

/-- A text of definitions and another text, joined by a line feed, spell the phrases of
    both, up to places. -/
theorem Spells.join {libraryPath programPath library program : String} {p q : Phrase}
    (hp : Spells libraryPath library p) (hcode : p.code = []) (hq : Spells programPath program q)
    (path : String) :
    ∃ r, Spells path (library ++ "\n" ++ program) r ∧ r.unplaced = (p.append q).unplaced := by
  have htexts : (Cursor.ofSource path (library ++ "\n" ++ program)).lexemes.1.map (·.text) =
      ((Cursor.ofSource libraryPath library).lexemes.1 ++
        (Cursor.ofSource programPath program).lexemes.1).map (·.text) := by
    rw [List.map_append, Cursor.text_lexemes, Cursor.text_lexemes, Cursor.text_lexemes]
    have hsource : (library ++ "\n" ++ program).toList =
        library.toList ++ '\n' :: program.toList := by
      simp
    simp only [Cursor.ofSource, hsource]
    exact Text.runs_append (by decide) _ _
  have hpayloads := payload_tokensOf_congr htexts
  rw [tokensOf_append hp.1] at hpayloads
  obtain ⟨r, hr, hunplaced⟩ := (hp.2.append hcode hq.2).exists_of_payload hpayloads
  exact ⟨r, ⟨(commentsClosed_congr htexts).2 (hp.1.append hq.1), hr⟩, hunplaced⟩

-- ---------------------------------------------------------------------------
-- A gap in the code
-- ---------------------------------------------------------------------------

/-- Where an address is when one more instruction stands at `gap`. -/
def skipping (gap p : Nat) : Nat :=
  if p < gap then p else p + 1

section Skipping

variable {gap p : Nat}

theorem skipping_of_lt (h : p < gap) : skipping gap p = p := if_pos h

theorem skipping_of_le (h : gap ≤ p) : skipping gap p = p + 1 := if_neg (Nat.not_lt_of_le h)

theorem le_skipping (gap p : Nat) : p ≤ skipping gap p := by
  unfold skipping
  split
  · exact Nat.le_refl p
  · exact Nat.le_succ p

/-- An address and the next one stay side by side, unless the gap is between them. -/
theorem skipping_succ (h : p + 1 ≠ gap) : skipping gap (p + 1) = skipping gap p + 1 := by
  unfold skipping
  split <;> split <;> omega

/-- Skipping the gap finds what stands there without it. -/
theorem getElem?_skipping {β : Type} (ys ys' : List β) (gapped : β) (p : Nat) :
    (ys ++ gapped :: ys')[skipping ys.length p]? = (ys ++ ys')[p]? := by
  rcases Nat.lt_or_ge p ys.length with hp | hp
  · rw [skipping_of_lt hp, List.getElem?_append_left hp, List.getElem?_append_left hp]
  · rw [skipping_of_le hp, List.getElem?_append_right (Nat.le_succ_of_le hp),
      List.getElem?_append_right hp, Nat.succ_sub hp]
    rfl

/-- Elements that are related one by one still are when one more stands at the gap. -/
theorem exists_getElem?_skipping {α β : Type} {R : β → α → Prop} {xs xs' : List α}
    {ys ys' : List β} {x : α} {gapped : β} (h : List.Forall₂ R ys xs)
    (h' : List.Forall₂ R ys' xs') (hx : (xs ++ xs')[p]? = some x) :
    ∃ y, (ys ++ gapped :: ys')[skipping xs.length p]? = some y ∧ R y x := by
  have hall : List.Forall₂ R (ys ++ ys') (xs ++ xs') := List.rel_append h h'
  obtain ⟨hp, rfl⟩ := List.getElem?_eq_some_iff.1 hx
  have hp' : p < (ys ++ ys').length := hall.length_eq ▸ hp
  refine ⟨(ys ++ ys')[p], ?_, hall.get hp' hp⟩
  rw [← h.length_eq, getElem?_skipping, List.getElem?_eq_getElem hp']

end Skipping

-- ---------------------------------------------------------------------------
-- Names and jumps around the gap
-- ---------------------------------------------------------------------------

/-- No jump of compiled words leads beyond the end of all of them. -/
theorem jump_lt_of_compiled {ws : List Word} {k : Nat} {o : Op}
    (hws : ∀ w ∈ ws, w.Compiled)
    (ho : (opsOf ws)[k]? = some o) (hjump : o.opcode = .jump ∨ o.opcode = .jumpIfNot) :
    k + o.arg < (opsOf ws).length := by
  induction ws generalizing k with
  | nil => cases ho
  | cons w ws ih =>
    obtain ⟨hw, hws⟩ := List.forall_mem_cons.1 hws
    obtain ⟨body, hbody, hops⟩ := hw
    rw [opsOf_cons, hops, List.append_assoc] at ho ⊢
    rcases Nat.lt_trichotomy k body.length with hk | rfl | hk
    · rw [List.getElem?_append_left hk] at ho
      have hsound := hbody.sound ho
      have harg : o.arg ≤ body.length - k := by
        unfold Op.Sound at hsound
        rcases hjump with hjump | hjump
        all_goals
          rw [hjump] at hsound
          exact hsound.2
      simp only [List.length_append, List.length_singleton]
      omega
    · obtain rfl : o = .ret := by simpa using ho.symm
      rcases hjump with hjump | hjump <;> cases hjump
    · obtain ⟨j, rfl⟩ := Nat.exists_eq_add_of_lt hk
      have hrest : (opsOf ws)[j]? = some o := by
        simpa [List.getElem?_append_right, Nat.add_assoc] using ho
      have hlt := ih hws hrest
      simp only [List.length_append, List.length_singleton]
      omega

/-- Some block ends where all of them do. -/
theorem Tiles.exists_finish {start stop : Nat} {es : List Entry} (h : Tiles start es stop)
    (hlt : start < stop) : ∃ e ∈ es, e.finish = stop := by
  rcases List.eq_nil_or_concat es with rfl | ⟨es, e, rfl⟩
  · exact absurd h (Nat.ne_of_lt hlt)
  · rw [List.concat_eq_append] at h ⊢
    exact ⟨e, by simp, h.finish_eq⟩

namespace Image

section JoinedWords

variable {d : Dictionary} {ws vs us : List Word} {top : Word} {gap : Nat} {name : String}

/-- The words `us` are those of a library and of a program as one text. On its own the
    library has the words `ws`, and then top-level code that only returns, at the address
    `gap`. The program has the words `vs`. -/
structure JoinedWords (d : Dictionary) (ws : List Word) (top : Word) (vs us : List Word)
    (gap : Nat) : Prop where
  tiles : Tiles 0 (place d ws).blocks gap
  name : top.name = Word.topLevel
  ops : top.ops = [.ret]
  content : us.map Word.content = (ws ++ vs).map Word.content

theorem JoinedWords.gap_eq (h : JoinedWords d ws top vs us gap) :
    d.nextAddress + (opsOf ws).length = gap := by
  rw [← nextAddress_place, Dictionary.nextAddress_of_tiles h.tiles]

theorem JoinedWords.nextAddress_eq (h : JoinedWords d ws top vs us gap) :
    (place d (ws ++ [top])).nextAddress = gap + 1 := by
  rw [nextAddress_place, opsOf_append, opsOf_cons, opsOf_nil, h.ops, List.length_append,
    ← Nat.add_assoc, h.gap_eq]
  rfl

/-- No address in front of the gap is moved. -/
theorem map_skipping_address? (h : Tiles 0 d.blocks gap) (name : String) :
    (d.address? name).map (skipping gap) = d.address? name := by
  cases haddress : d.address? name with
  | none => rfl
  | some address =>
    obtain ⟨e, he, rfl⟩ := exists_block_of_address? haddress
    exact congrArg some (skipping_of_lt (h.address_lt he))

/-- Top-level code that only returns changes no address but its own. -/
theorem JoinedWords.address?_place_top (h : JoinedWords d ws top vs us gap)
    (hname : name ≠ Word.topLevel) :
    (place d (ws ++ [top])).address? name = (place d ws).address? name := by
  rw [place_append]
  refine address?_place_of_forall_ne fun w hw => ?_
  rw [List.mem_singleton.1 hw, h.name]
  exact hname.symm

/-- A name that the program does not define means the same to the library. -/
theorem JoinedWords.address?_library (h : JoinedWords d ws top vs us gap)
    (hname : name ≠ Word.topLevel) (hvs : ∀ v ∈ vs, v.name ≠ name) :
    (place d (ws ++ [top])).address? name = ((place d us).address? name).map (skipping gap) := by
  rw [address?_place_congr h.content, place_append d ws vs, address?_place_of_forall_ne hvs,
    map_skipping_address? h.tiles, h.address?_place_top hname]

/-- A name means the same to the program, whether it is defined there or in front. -/
theorem JoinedWords.address?_program (h : JoinedWords d ws top vs us gap)
    (hname : name ≠ Word.topLevel) :
    (place (place d (ws ++ [top])) vs).address? name =
      ((place d us).address? name).map (skipping gap) := by
  have hskip : (fun address => skipping gap (address + gap)) = fun address => address + (gap + 1) :=
    funext fun address => skipping_of_le (Nat.le_add_left gap address)
  symm
  calc ((place d us).address? name).map (skipping gap)
    _ = ((place (place d ws) vs).address? name).map (skipping gap) := by
      rw [address?_place_congr h.content, place_append]
    _ = (((place {} vs).address? name).map (· + (gap + 1))).or ((place d ws).address? name) := by
      rw [address?_place_or, Dictionary.nextAddress_of_tiles h.tiles, Option.map_or,
        map_skipping_address? h.tiles, Option.map_map, ← hskip]
      rfl
    _ = (place (place d (ws ++ [top])) vs).address? name := by
      rw [address?_place_or (place d (ws ++ [top])), h.nextAddress_eq,
        h.address?_place_top hname]

/-- The ops of the library lead to corresponding places, if the program defines none of
    the names that they call. -/
theorem JoinedWords.correspond_library (h : JoinedWords d ws top vs us gap)
    (hcompiled : ∀ w ∈ ws, w.Compiled)
    (hcalls : ∀ o ∈ opsOf ws, o.opcode = .call →
      ∃ name, o = .call name ∧ name ≠ Word.topLevel ∧ ∀ v ∈ vs, v.name ≠ name) :
    Correspond (skipping gap) (place d us) (place d (ws ++ [top])) d.nextAddress d.nextAddress
      (opsOf ws) := by
  intro k o ho
  constructor
  · intro hcall name hdatum
    obtain ⟨name', rfl, hname, hvs⟩ := hcalls o (List.mem_of_getElem? ho) hcall
    cases hdatum
    exact h.address?_library hname hvs
  · intro hjump
    have hlt := jump_lt_of_compiled hcompiled ho hjump
    have hgap := h.gap_eq
    exact skipping_of_lt (by omega)

/-- The ops of the program lead to corresponding places. -/
theorem JoinedWords.correspond_program (h : JoinedWords d ws top vs us gap)
    (hcalls : ∀ o ∈ opsOf vs, o.opcode = .call → ∃ name, o = .call name ∧ name ≠ Word.topLevel) :
    Correspond (skipping gap) (place d us) (place (place d (ws ++ [top])) vs) gap (gap + 1)
      (opsOf vs) := by
  intro k o ho
  constructor
  · intro hcall name hdatum
    obtain ⟨name', rfl, hname⟩ := hcalls o (List.mem_of_getElem? ho) hcall
    cases hdatum
    exact h.address?_program hname
  · intro _
    rw [skipping_of_le (by omega)]
    omega

end JoinedWords

-- ---------------------------------------------------------------------------
-- Joined images
-- ---------------------------------------------------------------------------

/-- Code in front of the gap is not changed by it. -/
theorem WellFormed.movedBy_self {image : Image} {f : Nat → Nat} {i : Instruction}
    (h : image.WellFormed) (hi : i ∈ image.code) (hf : ∀ p, p < image.code.size → f p = p) :
    i.MovedBy f 0 i := by
  obtain ⟨p, hp, rfl⟩ := Array.getElem_of_mem hi
  have hinstruction : image.instruction? p = some image.code[p] := Array.getElem?_eq_getElem hp
  obtain ⟨o, -, ho⟩ := h.decodes p _ hinstruction
  refine ⟨rfl, ?_⟩
  rw [Instruction.movedArgument_of_opcode? ho]
  cases o with
  | call => exact (hf _ (h.call_lt hinstruction ho)).symm
  | jump => exact (hf _ (h.jump_lt hinstruction (.inl ho))).symm
  | jumpIfNot => exact (hf _ (h.jump_lt hinstruction (.inr ho))).symm
  | _ => rfl

theorem instruction?_eq (image : Image) (p : Nat) :
    image.instruction? p = image.code.toList[p]? := by
  rw [instruction?, Array.getElem?_toList]

section Join

variable {image split : Image} {ws vs us : List Word} {top : Word} {gap p : Nat}

/-- A block of the library ends in front of the gap. -/
theorem JoinedWords.succ_ne_gap {i : Instruction}
    (h : JoinedWords image.dictionary ws top vs us gap) (hsplit : split.Built)
    (hdictionary : split.dictionary = place (place image.dictionary (ws ++ [top])) vs)
    (hi : split.instruction? (skipping gap p) = some i) (hret : i.opcode? ≠ some .ret) :
    p + 1 ≠ gap := by
  rintro rfl
  obtain ⟨e, he, hfinish⟩ := h.tiles.exists_finish (Nat.succ_pos p)
  rw [skipping_of_lt (Nat.lt_succ_self p)] at hi
  refine hret ((hsplit.wellFormed.returns p i hi).2 ⟨e, ?_, hfinish.symm⟩)
  rw [hdictionary, place_append, blocks_place, blocks_place]
  exact List.mem_append_left _ (List.mem_append_left _ he)

/-- The code of one text lies around the gap in the code of two texts. -/
theorem JoinedWords.movedBy {code₁ code₁' code₂ code₂' : List Instruction} {ret : Instruction}
    {data₁ data₂ : List Value} (h : JoinedWords image.dictionary ws top vs us gap)
    (hbuilt : image.Built) (hsplit : split.Built)
    (hdictionary : split.dictionary = place (place image.dictionary (ws ++ [top])) vs)
    (hcode : split.code.toList = image.code.toList ++ code₁' ++ ret :: code₂')
    (hconstants : split.constants = image.constants ++ (data₁ ++ data₂).toArray)
    (hgap : image.code.size + code₁.length = gap)
    (h₁ : List.Forall₂ (·.MovedBy (skipping gap) 0 ·) code₁' code₁)
    (h₂ : List.Forall₂ (·.MovedBy (skipping gap) 0 ·) code₂' code₂) (d : Dictionary) :
    split.MovedBy (skipping gap) 0
      ({ image with dictionary := d }.extend (code₁ ++ code₂) (data₁ ++ data₂)) := by
  have hinstruction {p i} (hi : ({ image with dictionary := d }.extend (code₁ ++ code₂)
      (data₁ ++ data₂)).instruction? p = some i) :
      ∃ i', split.instruction? (skipping gap p) = some i' ∧ i'.MovedBy (skipping gap) 0 i := by
    have hself :
        List.Forall₂ (·.MovedBy (skipping gap) 0 ·) image.code.toList image.code.toList := by
      refine List.forall₂_same.2 fun i hi => hbuilt.wellFormed.movedBy_self (by simpa using hi) ?_
      intro p hp
      exact skipping_of_lt (by omega)
    have hsize : (image.code.toList ++ code₁).length = gap := by
      rw [List.length_append, Array.length_toList, hgap]
    rw [instruction?_eq, hcode, ← hsize]
    refine exists_getElem?_skipping (hsize ▸ List.rel_append hself h₁) (hsize ▸ h₂) ?_
    simpa [instruction?_eq, extend] using hi
  refine ⟨hinstruction, ?_, ?_⟩
  · intro k v hv
    rw [Nat.add_zero, constant?, hconstants]
    exact hv
  · intro p i hi hret
    obtain ⟨i', hi', hmoved⟩ := hinstruction hi
    exact skipping_succ (h.succ_ne_gap hsplit hdictionary hi' (hmoved.opcode?_eq ▸ hret))

/-- What a library and a program become one after the other: their code, with the return
    of the library in between. -/
theorem JoinedWords.exists_code {library : Image} {start start' : Nat}
    (h : JoinedWords image.dictionary ws top vs us gap)
    (hlibrary : image.link (ws ++ [top]) = .ok (library, start))
    (hprogram : library.link vs = .ok (split, start')) :
    ∃ code₁ ret code₂ data₁ data₂,
      Linked (place image.dictionary (ws ++ [top])) image.constants.size
        image.dictionary.nextAddress (opsOf ws) code₁ data₁ ∧
      Linked (place (place image.dictionary (ws ++ [top])) vs)
        (image.constants.size + data₁.length) (gap + 1) (opsOf vs) code₂ data₂ ∧
      split.dictionary = place (place image.dictionary (ws ++ [top])) vs ∧
      split.code.toList = image.code.toList ++ code₁ ++ ret :: code₂ ∧
      split.constants = image.constants ++ (data₁ ++ data₂).toArray := by
  obtain ⟨_, _, _, hlinked, rfl, -⟩ := link_eq_ok_iff.1 hlibrary
  obtain ⟨code₂, data₂, _, hlinked₂, rfl, -⟩ := link_eq_ok_iff.1 hprogram
  rw [opsOf_append, opsOf_cons, opsOf_nil, h.ops, Linked.append_iff] at hlinked
  obtain ⟨code₁, data₁, _, _, rfl, rfl, hlinked₁, hret⟩ := hlinked
  cases hret with
  | @cons _ _ argument _ _ _ _ _ _ hnil =>
    cases hnil
    refine ⟨code₁, .pack .ret argument, code₂, data₁, data₂, hlinked₁, ?_, rfl, ?_, ?_⟩
    · rw [← h.nextAddress_eq]
      simpa [extend, Op.data, Op.ret, Opcode.usesPool] using hlinked₂
    · simp [extend, Op.ret]
    · simp [extend, Op.data, Op.ret, Opcode.usesPool]

/-- What can be linked as two texts can be linked as one, and becomes the same code
    around the gap. -/
theorem JoinedWords.exists_link {library : Image} {us' : List Word} {last : Word}
    {start start' : Nat} (h : JoinedWords image.dictionary ws top vs us gap)
    (hbuilt : image.Built) (hsplit : split.Built)
    (hlibrary : image.link (ws ++ [top]) = .ok (library, start))
    (hprogram : library.link vs = .ok (split, start'))
    (hlast : us = us' ++ [last]) (hname : last.name = Word.topLevel)
    (hws : Correspond (skipping gap) (place image.dictionary us)
      (place image.dictionary (ws ++ [top])) image.dictionary.nextAddress
      image.dictionary.nextAddress (opsOf ws))
    (hvs : Correspond (skipping gap) (place image.dictionary us)
      (place (place image.dictionary (ws ++ [top])) vs) gap (gap + 1) (opsOf vs)) :
    ∃ joint, image.link us = .ok (joint, image.dictionary.nextAddress + (opsOf us').length) ∧
      split.MovedBy (skipping gap) 0 joint := by
  obtain ⟨code₁', ret, code₂', data₁, data₂, h₁', h₂', hdictionary, hcode, hconstants⟩ :=
    h.exists_code hlibrary hprogram
  -- the constants of both texts have the same places in both images
  rw [← Nat.add_zero image.constants.size] at h₁'
  rw [← Nat.add_zero (image.constants.size + data₁.length)] at h₂'
  obtain ⟨code₁, h₁⟩ := h₁'.exists_unmoved hws (le_skipping gap)
  obtain ⟨code₂, h₂⟩ := h₂'.exists_unmoved hvs (le_skipping gap)
  have hjoint : Linked (place image.dictionary us) image.constants.size
      image.dictionary.nextAddress (opsOf us) (code₁ ++ code₂) (data₁ ++ data₂) := by
    rw [opsOf_congr h.content, opsOf_append, Linked.append_iff, h.gap_eq]
    exact ⟨code₁, data₁, code₂, data₂, rfl, rfl, h₁, h₂⟩
  have hgap : image.code.size + code₁.length = gap := by
    rw [h₁.length_code, ← Dictionary.nextAddress_of_tiles hbuilt.tiles, h.gap_eq]
  refine ⟨_, link_eq_ok_iff.2 ⟨_, _, _, hjoint, rfl, hlast ▸ find?_topLevel_place hname, rfl⟩, ?_⟩
  exact h.movedBy hbuilt hsplit hdictionary hcode hconstants hgap (h₁.moved h₁' hws)
    (h₂.moved h₂' hvs) _

end Join

end Image

-- ---------------------------------------------------------------------------
-- Loading a library and its program
-- ---------------------------------------------------------------------------

/-- One text has the words of the library's definitions, and then those of the program,
    if the library has no code outside of its definitions. -/
theorem Phrase.content_words_append {p q r : Phrase} (hcode : p.code = [])
    (h : r.unplaced = (p.append q).unplaced) (start start' : Location) :
    (r.words start).map Word.content = (p.definedWords ++ q.words start').map Word.content := by
  rw [content_words_congr h start start', words, words, definedWords_append, code_append, hcode,
    List.append_assoc]
  rfl

/-- One text is compiled if the library and the program can be compiled as two. -/
theorem Spells.wordsOfSource_join {path source : String} {p q r : Phrase}
    (hr : Spells path source r) (h : r.unplaced = (p.append q).unplaced)
    (hp : p.depth ≤ nestingLimit) (hpfits : p.Fits) (hq : q.depth ≤ nestingLimit)
    (hqfits : q.Fits) :
    wordsOfSource path source = .ok (r.words (.start path)) := by
  refine wordsOfSource_of_spells hr ?_ ((hpfits.append hqfits).congr h)
  rw [← r.depth_unplaced, h, Phrase.depth_unplaced, Phrase.depth_append]
  exact Nat.max_le.2 ⟨hp, hq⟩

/-- The phrases of a library and of a program can be linked as one phrase. -/
theorem Image.exists_link_phrase {image library split : Image} {p q r : Phrase}
    {libraryPath programPath libraryText programText : String} {start₁ start₂ : Nat}
    (hbuilt : image.Built) (hsplit : split.Built) (hp : Spells libraryPath libraryText p)
    (hq : Spells programPath programText q) (hcode : p.code = [])
    (hr : r.unplaced = (p.append q).unplaced)
    (hcapture : ∀ v ∈ q.words (.start programPath), v.name ≠ Word.topLevel →
      ∀ w ∈ p.words (.start libraryPath), .call v.name ∉ w.ops)
    (hlibrary : image.link (p.words (.start libraryPath)) = .ok (library, start₁))
    (hprogram : library.link (q.words (.start programPath)) = .ok (split, start₂))
    (start : Location) :
    ∃ gap joint ip, image.link (r.words start) = .ok (joint, ip) ∧
      split.MovedBy (skipping gap) 0 joint ∧ start₂ = skipping gap ip := by
  have hmem {w : Word} (hw : w ∈ p.definedWords) : w ∈ p.words (.start libraryPath) :=
    List.mem_append_left _ hw
  have hcompiled : ∀ w ∈ p.definedWords, w.Compiled := fun w hw => hp.2.compiled_words (hmem hw)
  have hops : p.code ++ [Op.ret] = [.ret] := by rw [hcode]; rfl
  have hjoined : JoinedWords image.dictionary p.definedWords
      (.ofBody Word.topLevel (.start libraryPath) p.code) (q.words (.start programPath))
      (r.words start) (image.dictionary.nextAddress + (opsOf p.definedWords).length) :=
    ⟨hbuilt.tiles_place hcompiled, rfl, hops, Phrase.content_words_append hcode hr _ _⟩
  have hcalls : ∀ o ∈ opsOf p.definedWords, o.opcode = .call →
      ∃ name, o = .call name ∧ name ≠ Word.topLevel ∧
        ∀ v ∈ q.words (.start programPath), v.name ≠ name := by
    intro o ho hcall
    obtain ⟨w, hw, how⟩ := List.mem_flatMap.1 ho
    obtain ⟨name, rfl, hname⟩ := hp.exists_call (List.mem_flatMap.2 ⟨w, hmem hw, how⟩) hcall
    refine ⟨name, rfl, hname, ?_⟩
    rintro v hv rfl
    exact hcapture v hv hname w (hmem hw) how
  obtain ⟨joint, hlink, hmoved⟩ := hjoined.exists_link hbuilt hsplit hlibrary hprogram rfl rfl
    (hjoined.correspond_library hcompiled hcalls)
    (hjoined.correspond_program fun o ho hcall => hq.exists_call ho hcall)
  refine ⟨_, joint, _, hlink, hmoved, ?_⟩
  have hnext : library.dictionary.nextAddress =
      image.dictionary.nextAddress + (opsOf p.definedWords).length + 1 := by
    obtain ⟨_, _, _, -, rfl, -⟩ := link_eq_ok_iff.1 hlibrary
    exact hjoined.nextAddress_eq
  have hdefined : opsOf r.definedWords = opsOf p.definedWords ++ opsOf q.definedWords := by
    rw [← opsOf_append, ← Phrase.definedWords_append]
    apply opsOf_congr
    rw [← r.content_definedWords_unplaced, hr, Phrase.content_definedWords_unplaced]
  rw [start_of_link hprogram rfl, hnext, hdefined, List.length_append, skipping_of_le (by omega)]
  omega

/-- If a library of definitions and then a program can be loaded, they can be loaded as
    one text too, unless the program defines a name that the library calls. Both machines
    run in step: after any number of instructions they have the same status and the same
    stack, variables and output. -/
theorem Machine.Unrun.load_joined {m loaded split : Machine}
    {libraryPath programPath library program : String} {libraryWords programWords : List Word}
    (h : m.Unrun) (hlibrary : m.load libraryPath library = .ok loaded)
    (hprogram : loaded.load programPath program = .ok split)
    (hlibraryWords : wordsOfSource libraryPath library = .ok libraryWords)
    (hprogramWords : wordsOfSource programPath program = .ok programWords)
    (honly : ∀ w ∈ libraryWords, w.name = Word.topLevel → w.ops = [.ret])
    (hcapture : ∀ v ∈ programWords, v.name ≠ Word.topLevel →
      ∀ w ∈ libraryWords, .call v.name ∉ w.ops) (path : String) :
    ∃ joint, m.load path (library ++ "\n" ++ program) = .ok joint ∧
      ∀ (output : Sink) (n : Nat),
        ((joint.writingTo output).runFor n).1 = ((split.writingTo output).runFor n).1 ∧
        ((joint.writingTo output).runFor n).2.state =
          ((split.writingTo output).runFor n).2.state := by
  obtain ⟨p, hp, hpdepth, hpfits, rfl⟩ := spells_of_wordsOfSource hlibraryWords
  obtain ⟨q, hq, hqdepth, hqfits, rfl⟩ := spells_of_wordsOfSource hprogramWords
  have hcode : p.code = [] := by
    have htop : .ofBody Word.topLevel (.start libraryPath) p.code ∈ p.words (.start libraryPath) :=
      List.mem_append_right _ List.mem_cons_self
    simpa using honly _ htop rfl
  obtain ⟨r, hr, hunplaced⟩ := hp.join hcode hq path
  have hwords := hr.wordsOfSource_join hunplaced hpdepth hpfits hqdepth hqfits
  have hcontent := Phrase.content_words_append hcode hunplaced (.start path) (.start programPath)
  obtain ⟨hbuilt, hcalls, -⟩ := h.kept
  have hsplit := ((h.load hlibrary).load hprogram).kept.1
  obtain ⟨_, libraryImage, _, hwords₁, hlink₁, rfl⟩ := load_eq_ok_iff.1 hlibrary
  obtain ⟨_, splitImage, _, hwords₂, hlink₂, rfl⟩ := load_eq_ok_iff.1 hprogram
  obtain rfl := Except.ok.inj (hlibraryWords.symm.trans hwords₁)
  obtain rfl := Except.ok.inj (hprogramWords.symm.trans hwords₂)
  obtain ⟨gap, joint, ip, hlink, hmoved, rfl⟩ := Image.exists_link_phrase hbuilt hsplit hp hq hcode
    hunplaced hcapture hlink₁ hlink₂ (.start path)
  have hload := load_eq_ok_iff.2 ⟨_, joint, ip, hwords, hlink, rfl⟩
  refine ⟨_, hload, ?_⟩
  intro output n
  have hstart : Machine.MovedBy { m with image := splitImage, ip := skipping gap ip }
      (skipping gap) 0 { m with image := joint, ip } := by
    refine ⟨hmoved, rfl, ?_, ?_, rfl⟩
    · simp [hcalls]
    · simp [hcalls]
  obtain ⟨hstatus, hend⟩ :=
    (hstart.writingTo output).runFor ((h.ready_of_load hload).writingTo output) n
  exact ⟨hstatus.symm, hend.state.symm⟩

/-- The program defines a word of the library again, and calls the other one, which calls
    a word of an older text. -/
theorem Machine.Unrun.load_joined_redefined :
    ∃ m loaded split joint : Machine, m.Unrun ∧
      m.load "b" ": f g 1 + ; : k 2 ; ( f )" = .ok loaded ∧
      loaded.load "c" ": k 7 . ; : h f . k ; h" = .ok split ∧
      m.load "d" (": f g 1 + ; : k 2 ; ( f )" ++ "\n" ++ ": k 7 . ; : h f . k ; h") = .ok joint ∧
      ((joint.writingTo {}).runFor 20).1 = .halted ∧
      ((joint.writingTo {}).runFor 20).2.state.output.written.data = #[54, 55] := by
  let m : Machine := ({} : Machine).tryLoad ("a", ": g 5 ;")
  let loaded : Machine := m.tryLoad ("b", ": f g 1 + ; : k 2 ; ( f )")
  let split : Machine := loaded.tryLoad ("c", ": k 7 . ; : h f . k ; h")
  let libraryWords := ((wordsOfSource "b" ": f g 1 + ; : k 2 ; ( f )").toOption).getD []
  let programWords := ((wordsOfSource "c" ": k 7 . ; : h f . k ; h").toOption).getD []
  have hruns : (({} : Machine).load "a" ": g 5 ;").isOk = true ∧
      (m.load "b" ": f g 1 + ; : k 2 ; ( f )").isOk = true ∧
      (loaded.load "c" ": k 7 . ; : h f . k ; h").isOk = true ∧
      (wordsOfSource "b" ": f g 1 + ; : k 2 ; ( f )").toOption = some libraryWords ∧
      (wordsOfSource "c" ": k 7 . ; : h f . k ; h").toOption = some programWords ∧
      (∀ w ∈ libraryWords, w.name = Word.topLevel → w.ops = [.ret]) ∧
      (∀ v ∈ programWords, v.name ≠ Word.topLevel → ∀ w ∈ libraryWords, .call v.name ∉ w.ops) ∧
      ((split.writingTo {}).runFor 20).1 = .halted ∧
      ((split.writingTo {}).runFor 20).2.state.output.written.data = #[54, 55] := by
    decide +kernel
  obtain ⟨holder, hlibrary, hprogram, hlibraryWords, hprogramWords, honly, hcapture, hhalted,
    hwritten⟩ := hruns
  have hm : m.Unrun := .load .new (load_eq_ok_tryLoad holder)
  have hloaded := load_eq_ok_tryLoad hlibrary
  have hsplit := load_eq_ok_tryLoad hprogram
  obtain ⟨joint, hjoint, hrun⟩ := hm.load_joined hloaded hsplit (eq_ok_of_toOption hlibraryWords)
    (eq_ok_of_toOption hprogramWords) honly hcapture "d"
  obtain ⟨hstatus, hstate⟩ := hrun {} 20
  exact ⟨m, loaded, split, joint, hm, hloaded, hsplit, hjoint, hstatus.trans hhalted,
    hstate ▸ hwritten⟩

end Forth
