-- SUMMARY: Open calls: they form a chain from top-level code, so a call trace is true and a run stops at the end of it.
import Forth.Proofs.Termination
import Forth.Proofs.Transcripts
import Mathlib.Data.List.Chain

/-!
# Open calls

The open calls of a machine lie in blocks of the image, each of them before the end
of its block, and the outermost one lies in top-level code. A step keeps that, and
so do runs and loads, also runs that fail. A run that ends without a fault has
returned from all of them, so it stops at the end of that top-level code.

As long as no run failed, every open call is a call of the block in which the next
one lies, so the trace of the first fault is the chain of calls that led to it.
-/

namespace Forth

-- ---------------------------------------------------------------------------
-- Blocks by address
-- ---------------------------------------------------------------------------

namespace Tiles

variable {start stop p : Nat} {e : Entry} {es : List Entry}

theorem le_address (h : Tiles start es stop) (he : e ∈ es) : start ≤ e.address := by
  induction es generalizing start with
  | nil => cases he
  | cons e' es ih =>
    obtain ⟨rfl, -, hrest⟩ := h
    rcases List.mem_cons.1 he with rfl | he
    · exact Nat.le_refl _
    · exact Nat.le_trans (Nat.le_add_right _ _) (ih hrest he)

/-- The last block that starts at an address or before it is the one that covers it. -/
theorem find?_reverse (h : Tiles start es stop) (he : e ∈ es) (hp : e.covers p = true) :
    es.reverse.find? (·.address ≤ p) = some e := by
  induction es generalizing start with
  | nil => cases he
  | cons e' es ih =>
    obtain ⟨rfl, -, hrest⟩ := h
    rw [List.reverse_cons, List.find?_append]
    rcases List.mem_cons.1 he with rfl | he
    · have hnone : es.reverse.find? (·.address ≤ p) = none := by
        rw [List.find?_eq_none]
        intro f hf hle
        have hlt := Nat.lt_of_lt_of_le (Entry.covers_iff.1 hp).2
          (hrest.le_address (List.mem_reverse.1 hf))
        exact Nat.not_lt_of_le (of_decide_eq_true hle) hlt
      rw [hnone, Option.none_or, List.find?_cons_of_pos]
      exact decide_eq_true (Entry.covers_iff.1 hp).1
    · rw [ih hrest he]
      rfl

end Tiles

namespace Image

variable {image : Image} {e f : Entry} {p : Nat}

/-- The block `e` holds the address `p`, and no other block does. -/
def BlockAt (image : Image) (p : Nat) (e : Entry) : Prop :=
  image.dictionary.blocks.filter (·.covers p) = [e]

/-- The instruction at `p` is a call of the block `f`. -/
def CallAt (image : Image) (p : Nat) (f : Entry) : Prop :=
  ∃ i, image.instruction? p = some i ∧ i.opcode? = some .call ∧ i.argument = f.address

def opcodeAt? (image : Image) (p : Nat) : Option Opcode :=
  (image.instruction? p).bind (·.opcode?)

/-- A block of a built image is the only one at its addresses. -/
theorem Built.blockAt (h : image.Built) (he : e ∈ image.dictionary.blocks)
    (hp : e.covers p = true) : image.BlockAt p e := by
  have hlt : p < image.code.size :=
    Nat.lt_of_lt_of_le (Entry.covers_iff.1 hp).2 (h.tiles.bounds he).2
  have hcount := h.tiles.countP_eq_one (Nat.zero_le p) hlt
  rw [List.countP_eq_length_filter] at hcount
  obtain ⟨f, hf⟩ := List.length_eq_one_iff.1 hcount
  have hmem : e ∈ image.dictionary.blocks.filter (·.covers p) := List.mem_filter.2 ⟨he, hp⟩
  rw [hf] at hmem
  obtain rfl := List.mem_singleton.1 hmem
  exact hf

/-- The entry at an address is that of the block around it. -/
theorem Built.entryAt?_of_covers (h : image.Built) (he : e ∈ image.dictionary.blocks)
    (hp : e.covers p = true) : image.dictionary.entryAt? p = some e := by
  have hfind := h.tiles.find?_reverse he hp
  rw [Dictionary.blocks, List.reverse_reverse] at hfind
  rw [Dictionary.entryAt?, hfind]
  exact Option.filter_eq_some_iff.2 ⟨rfl, hp⟩

theorem opcodeAt?_of_opcode? {i : Instruction} {o : Opcode} (hi : image.instruction? p = some i)
    (ho : i.opcode? = some o) : image.opcodeAt? p = some o := by
  rw [opcodeAt?, hi]
  exact ho

end Image

/-- Only a call leads into another block. -/
theorem Opcode.enter_mem_flows {o : Opcode} {argument target : Nat}
    (h : .enter target ∈ o.flows argument) : o = .call ∧ target = argument := by
  cases o <;> simp_all [flows]

/-- An instruction that enters a block is a call of it. -/
theorem Image.callAt_of_enter {image : Image} {f : Entry} {p : Nat} {s s' : State}
    (h : image.executeAt p s = .ok (.enter f.address) s') : image.CallAt p f := by
  obtain ⟨i, o, hi, ho, hflow⟩ := exists_of_executeAt h
  obtain ⟨rfl, haddress⟩ := Opcode.enter_mem_flows hflow
  exact ⟨i, hi, ho, haddress.symm⟩

-- ---------------------------------------------------------------------------
-- Frames
-- ---------------------------------------------------------------------------

/-- The open calls, innermost first, lie inside of blocks, before the ends of them, and
    each call leads to the block in which the next inner address lies. The innermost
    address lies in the given block, and the outermost one in the block `bottom`. -/
inductive Image.Frames (image : Image) (leads : Nat → Entry → Prop) (bottom : Entry) :
    List Nat → Entry → Prop where
  | bottom : Frames image leads bottom [] bottom
  | call {e f : Entry} {p : Nat} {calls : List Nat} :
      e ∈ image.dictionary.blocks → e.covers p = true → p + 1 < e.finish → leads p f →
      Frames image leads bottom calls e → Frames image leads bottom (p :: calls) f

theorem Image.Frames.mono {image image' : Image} {leads : Nat → Entry → Prop} {bottom e : Entry}
    {calls : List Nat} (h : image.Frames leads bottom calls e)
    (hblocks : image.dictionary.blocks ⊆ image'.dictionary.blocks) :
    image'.Frames leads bottom calls e := by
  induction h with
  | bottom => exact .bottom
  | call he hp hnext hleads _ ih => exact .call (hblocks he) hp hnext hleads ih

namespace Machine

variable {m m' : Machine} {leads : Nat → Entry → Prop} {bottom : Entry} {n : Nat}

/-- The next instruction lies in a block, and so do the open calls. -/
structure Framed (leads : Nat → Entry → Prop) (bottom : Entry) (m : Machine) : Prop where
  image : m.image.Built
  frames : ∃ e ∈ m.image.dictionary.blocks, e.covers m.ip = true ∧
    m.image.Frames leads bottom m.calls e

/-- A step keeps the frames, also a step that fails. A program halts at the end of the
    outermost block. -/
theorem Framed.step (h : m.Framed leads bottom)
    (hleads : ∀ p f, m.image.CallAt p f → leads p f) :
    m.step.2.Framed leads bottom ∧
      (m.step.1 = .halted →
        bottom ∈ m.image.dictionary.blocks ∧ m.step.2.ip + 1 = bottom.finish) := by
  obtain ⟨hbuilt, e, he, hp, hframes⟩ := h
  have hforward : ∀ {q : Nat}, m.ip < q → q < e.finish → e.covers q = true := fun hlt hfinish =>
    Entry.covers_iff.2 ⟨Nat.le_trans (Entry.covers_iff.1 hp).1 (Nat.le_of_lt hlt), hfinish⟩
  unfold Machine.step
  cases hr : m.image.executeAt m.ip m.state with
  | error fault s => exact ⟨⟨hbuilt, e, he, hp, hframes⟩, fun hhalted => nomatch hhalted⟩
  | ok flow s =>
    have hwithin := hbuilt.within_of_executeAt he hp hr
    cases flow with
    | next =>
      exact ⟨⟨hbuilt, e, he, hforward (Nat.lt_succ_self _) hwithin, hframes⟩,
        fun hhalted => nomatch hhalted⟩
    | jump target =>
      exact ⟨⟨hbuilt, e, he, hforward hwithin.1 hwithin.2, hframes⟩,
        fun hhalted => nomatch hhalted⟩
    | enter target =>
      obtain ⟨hnext, f, ⟨-, hf, -⟩, rfl⟩ := hwithin
      have hcall := hleads _ _ (Image.callAt_of_enter hr)
      exact ⟨⟨hbuilt, f, hf, covers_address hbuilt hf, .call he hp hnext hcall hframes⟩,
        fun hhalted => nomatch hhalted⟩
    | leave =>
      obtain ⟨image, ip, calls, state⟩ := m
      cases hframes with
      | bottom => exact ⟨⟨hbuilt, bottom, he, hp, .bottom⟩, fun _ => ⟨he, hwithin⟩⟩
      | @call e' _ address calls he' hp' hnext _ hframes =>
        -- the program goes on behind the innermost call, which is not the last of its block
        have hreturn : e'.covers (address + 1) = true :=
          Entry.covers_iff.2 ⟨Nat.le_succ_of_le (Entry.covers_iff.1 hp').1, hnext⟩
        exact ⟨⟨hbuilt, e', he', hreturn, hframes⟩, fun hhalted => nomatch hhalted⟩

/-- A run keeps its open calls inside of blocks, and halts at the end of the outermost
    block. -/
theorem Framed.runFor (h : m.Framed leads bottom)
    (hleads : ∀ p f, m.image.CallAt p f → leads p f) (n : Nat) :
    (m.runFor n).2.Framed leads bottom ∧
      ((m.runFor n).1 = .halted →
        bottom ∈ m.image.dictionary.blocks ∧ (m.runFor n).2.ip + 1 = bottom.finish) := by
  induction n generalizing m with
  | zero => exact ⟨h, fun hhalted => nomatch hhalted⟩
  | succ n ih =>
    have hstep := h.step hleads
    have himage := m.image_step
    rw [Machine.runFor]
    split
    · rename_i m₁ hm₁
      rw [hm₁] at hstep himage
      rw [← himage] at hleads ⊢
      exact ih hstep.1 hleads
    · exact hstep

theorem Framed.run {output : Sink} {status : Status} (h : m.Framed leads bottom)
    (hleads : ∀ p f, m.image.CallAt p f → leads p f)
    (hrun : (m.writingTo output).runFor n = (status, m')) :
    m'.Framed leads bottom ∧ m'.image = m.image ∧
      (status = .halted → bottom ∈ m'.image.dictionary.blocks ∧ m'.ip + 1 = bottom.finish) := by
  have hstart : (m.writingTo output).Framed leads bottom := ⟨h.image, h.frames⟩
  have hframed := hstart.runFor hleads n
  have himage := (m.writingTo output).image_runFor n
  rw [← himage, hrun] at hframed
  rw [hrun] at himage
  exact ⟨hframed.1, himage, hframed.2⟩

-- ---------------------------------------------------------------------------
-- Loads
-- ---------------------------------------------------------------------------

/-- A load places its top-level code last, and goes on there. -/
theorem exists_top_of_load {path source : String} (hbuilt : m.image.Built)
    (h : m.load path source = .ok m') :
    ∃ top ∈ m'.image.dictionary.blocks, top.name = Word.topLevel ∧ top.address = m'.ip ∧
      top.finish = m'.image.code.size ∧
      m.image.dictionary.blocks ⊆ m'.image.dictionary.blocks := by
  have hbuilt' := built_of_load hbuilt h
  obtain ⟨p, image, ip, -, hlink, rfl⟩ := exists_phrase_of_load h
  obtain rfl := Image.start_of_link hlink rfl
  obtain ⟨code, data, entry, -, rfl, -⟩ := Image.link_eq_ok_iff.1 hlink
  have hblocks := Image.blocks_place m.image.dictionary (p.words (.start path))
  have htiles := hbuilt'.tiles
  dsimp only [Image.extend] at htiles ⊢
  rw [hblocks] at htiles ⊢
  rw [Phrase.words, entriesFrom_append, ← List.append_assoc] at htiles ⊢
  refine ⟨_, List.mem_append_right _ List.mem_cons_self, rfl, rfl, htiles.finish_eq, ?_⟩
  rw [List.append_assoc]
  exact List.subset_append_left _ _

/-- If no call is open, the code that a load adds is the outermost block. -/
theorem framed_of_load {path source : String} (leads : Nat → Entry → Prop) (hbuilt : m.image.Built)
    (hcalls : m.calls = []) (h : m.load path source = .ok m') :
    ∃ top ∈ m'.image.dictionary.blocks, top.name = Word.topLevel ∧ top.address = m'.ip ∧
      top.finish = m'.image.code.size ∧ m'.Framed leads top := by
  have hbuilt' := built_of_load hbuilt h
  obtain ⟨top, htop, hname, haddress, hfinish, -⟩ := exists_top_of_load hbuilt h
  refine ⟨top, htop, hname, haddress, hfinish, hbuilt', top, htop, ?_, ?_⟩
  · exact haddress ▸ covers_address hbuilt' htop
  · obtain ⟨_, _, _, -, -, rfl⟩ := exists_phrase_of_load h
    exact hcalls.symm ▸ .bottom

/-- The outermost open call lies in the block `bottom`, whatever the open calls lead to. -/
def Grounded (bottom : Entry) (m : Machine) : Prop :=
  m.Framed (fun _ _ => True) bottom

/-- Calls that are open stay open when a text is loaded. -/
theorem Grounded.load {path source : String} (h : m.Grounded bottom) (hcalls : m.calls ≠ [])
    (hload : m.load path source = .ok m') : m'.Grounded bottom := by
  obtain ⟨hbuilt, e, -, -, hframes⟩ := h
  obtain ⟨top, htop, -, haddress, -, hblocks⟩ := exists_top_of_load hbuilt hload
  have hbuilt' := built_of_load hbuilt hload
  refine ⟨hbuilt', top, htop, haddress ▸ covers_address hbuilt' htop, ?_⟩
  obtain ⟨_, _, _, -, -, rfl⟩ := exists_phrase_of_load hload
  obtain ⟨image, ip, calls, state⟩ := m
  cases hframes with
  | bottom => exact absurd rfl hcalls
  | call he hp hnext _ hframes =>
    exact .call (hblocks he) hp hnext trivial (hframes.mono hblocks)

-- ---------------------------------------------------------------------------
-- Sessions
-- ---------------------------------------------------------------------------

/-- Nothing was loaded yet, or the outermost open call lies in top-level code. -/
def Rooted (m : Machine) : Prop :=
  m.image = {} ∧ m.calls = [] ∨ ∃ bottom, bottom.name = Word.topLevel ∧ m.Grounded bottom

theorem Rooted.built (h : m.Rooted) : m.image.Built := by
  rcases h with ⟨himage, -⟩ | ⟨bottom, -, hgrounded⟩
  · exact himage ▸ Image.built_empty
  · exact hgrounded.image

/-- If no call is open, a load makes its own code the outermost block, and else that
    block stays. -/
theorem Rooted.load {path source : String} (h : m.Rooted) (hload : m.load path source = .ok m') :
    ∃ bottom, bottom.name = Word.topLevel ∧ m'.Grounded bottom ∧
      (m.calls = [] → bottom.address = m'.ip ∧ bottom.finish = m'.image.code.size) := by
  by_cases hcalls : m.calls = []
  · obtain ⟨top, -, hname, haddress, hfinish, hframed⟩ := framed_of_load _ h.built hcalls hload
    exact ⟨top, hname, hframed, fun _ => ⟨haddress, hfinish⟩⟩
  · rcases h with ⟨-, hnone⟩ | ⟨bottom, hname, hgrounded⟩
    · exact absurd hnone hcalls
    · exact ⟨bottom, hname, hgrounded.load hcalls hload, fun hnone => absurd hnone hcalls⟩

theorem Rooted.run {output : Sink} {status : Status} (h : m.Rooted)
    (hrun : (m.writingTo output).runFor n = (status, m')) : m'.Rooted := by
  rcases h with ⟨himage, hcalls⟩ | ⟨bottom, hname, hgrounded⟩
  · have hsame := runFor_of_image_empty (m := m.writingTo output) himage n
    rw [hrun] at hsame
    obtain rfl : m' = m.writingTo output := hsame
    exact .inl ⟨himage, hcalls⟩
  · exact .inr ⟨bottom, hname, (Framed.run hgrounded (fun _ _ _ => trivial) hrun).1⟩

/-- Whatever is asked of a machine keeps the outermost open call in top-level code. -/
theorem Answers.rooted {x : Exchange} (h : m.Answers x m') (hm : m.Rooted) : m'.Rooted := by
  cases h with
  | loaded hload =>
    obtain ⟨bottom, hname, hgrounded, -⟩ := hm.load (load_of_loadInPlace_ok hload)
    exact .inr ⟨bottom, hname, hgrounded⟩
  | refused hload => exact (load_of_loadInPlace_error hload).2 ▸ hm
  | halted hrun | failed hrun => exact hm.run hrun

/-- Without a load the frames stay on the same outermost block. -/
theorem Answers.framed {x : Exchange} (h : m.Answers x m') (hx : x.isLoad = false)
    (hm : m.Framed leads bottom) (hleads : ∀ p f, m.image.CallAt p f → leads p f) :
    m'.Framed leads bottom ∧ m'.image = m.image := by
  cases h with
  | loaded _ => cases hx
  | refused hload =>
    obtain ⟨-, rfl⟩ := load_of_loadInPlace_error hload
    exact ⟨hm, rfl⟩
  | halted hrun | failed hrun =>
    obtain ⟨hframed, himage, -⟩ := hm.run hleads hrun
    exact ⟨hframed, himage⟩

/-- Without a failed run no call stays open. -/
theorem Answers.calls_eq_nil {x : Exchange} (h : m.Answers x m') (hx : x.isFailure = false)
    (hm : m.calls = []) : m'.calls = [] := by
  cases h with
  | loaded hload =>
    obtain ⟨_, _, _, -, -, rfl⟩ := exists_phrase_of_load (load_of_loadInPlace_ok hload)
    exact hm
  | refused hload => exact (load_of_loadInPlace_error hload).2 ▸ hm
  | halted hrun => exact calls_of_halted hrun
  | failed _ => cases hx

end Machine

namespace Transcript

variable {m m' : Machine} {log : List Exchange} {leads : Nat → Entry → Prop} {bottom : Entry}

/-- A session keeps the outermost open call in top-level code. -/
theorem rooted (h : Transcript m log m') (hm : m.Rooted) : m'.Rooted := by
  induction h with
  | nil => exact hm
  | cons hx _ ih => exact ih (hx.rooted hm)

/-- A session without loads keeps the open calls inside of blocks, and the image as it
    is. -/
theorem framed (h : Transcript m log m') (hlog : ∀ x ∈ log, x.isLoad = false)
    (hm : m.Framed leads bottom) (hleads : ∀ p f, m.image.CallAt p f → leads p f) :
    m'.Framed leads bottom ∧ m'.image = m.image := by
  induction h with
  | nil => exact ⟨hm, rfl⟩
  | cons hx _ ih =>
    obtain ⟨hframed, himage⟩ := hx.framed (hlog _ List.mem_cons_self) hm hleads
    obtain ⟨hframed', himage'⟩ :=
      ih (fun y hy => hlog y (List.mem_cons_of_mem _ hy)) hframed (himage ▸ hleads)
    exact ⟨hframed', himage'.trans himage⟩

/-- A session without failures leaves no call open. -/
theorem calls_eq_nil (h : Transcript m log m') (hlog : ∀ x ∈ log, x.isFailure = false)
    (hm : m.calls = []) : m'.calls = [] := by
  induction h with
  | nil => exact hm
  | cons hx _ ih =>
    exact ih (fun y hy => hlog y (List.mem_cons_of_mem _ hy))
      (hx.calls_eq_nil (hlog _ List.mem_cons_self) hm)

end Transcript

-- ---------------------------------------------------------------------------
-- Where runs stop
-- ---------------------------------------------------------------------------

namespace Machine

variable {m m' : Machine} {e : Entry}

theorem Answers.exists_load {x : Exchange} (h : m.Answers x m') (hx : x.isLoad = true) :
    ∃ path source, m.load path source = .ok m' := by
  cases h with
  | loaded hload => exact ⟨_, _, load_of_loadInPlace_ok hload⟩
  | refused _ | halted _ | failed _ => cases hx

/-- With no open call, the return at the end of a block can be run again and again. -/
theorem answers_of_last (hbuilt : m.image.Built) (he : e ∈ m.image.dictionary.blocks)
    (hlast : m.ip + 1 = e.finish) (hcalls : m.calls = []) (output : Sink) :
    m.Answers ⟨.run output, ⟨.ok (), output⟩⟩ (m.writingTo output) := by
  obtain ⟨image, ip, calls, state⟩ := m
  obtain rfl : calls = [] := hcalls
  let m : Machine := ⟨image, ip, [], state⟩
  have hstep : (m.writingTo output).step = (.halted, m.writingTo output) :=
    step_of_last (m := m.writingTo output) hbuilt he hlast
  exact .halted ((runFor_one _).trans hstep)

end Machine

namespace Transcript

variable {before after : List Exchange} {x : Exchange} {m₀ m₁ m m' : Machine} {output : Sink}

/-- A run that ends without a fault has returned from all calls, and stops at the end of
    top-level code: of the newest text, unless calls were open when that was loaded. To
    run again does nothing. -/
theorem stops_at_end_of_top_level {written : Sink} (hbefore : Transcript {} before m₀)
    (hload : m₀.Answers x m₁) (hx : x.isLoad = true) (hafter : Transcript m₁ after m)
    (hnewest : ∀ y ∈ after, y.isLoad = false)
    (hrun : m.Answers ⟨.run output, ⟨.ok (), written⟩⟩ m') :
    m'.calls = [] ∧ m'.image = m.image ∧
      (∃ e ∈ m'.image.dictionary.blocks, e.name = Word.topLevel ∧ m'.ip + 1 = e.finish ∧
        (m₀.calls = [] → e.address = m₁.ip ∧ e.finish = m'.image.code.size)) ∧
      ∀ output' reply m'', m'.Answers ⟨.run output', reply⟩ m'' ↔
        reply = ⟨.ok (), output'⟩ ∧ m'' = m'.writingTo output' := by
  cases hrun with
  | halted hrun =>
    have hcalls := Machine.calls_of_halted hrun
    obtain ⟨path, source, hload⟩ := hload.exists_load hx
    obtain ⟨bottom, hname, hgrounded, htop⟩ := (hbefore.rooted (.inl ⟨rfl, rfl⟩)).load hload
    obtain ⟨hframed, himage⟩ := hafter.framed hnewest hgrounded fun _ _ _ => trivial
    obtain ⟨hframed', himage', hstop⟩ := hframed.run (fun _ _ _ => trivial) hrun
    obtain ⟨hbottom, hip⟩ := hstop rfl
    refine ⟨hcalls, himage', ⟨bottom, hbottom, hname, hip, ?_⟩, ?_⟩
    · rwa [himage', himage]
    · intro output' reply m''
      have hagain := Machine.answers_of_last hframed'.image hbottom hip hcalls output'
      constructor
      · intro hanswers
        obtain ⟨heq, rfl⟩ := hanswers.unique hagain rfl
        cases heq
        exact ⟨rfl, rfl⟩
      · rintro ⟨rfl, rfl⟩
        exact hagain

/-- The first run fails inside of a call, and the next text is loaded while that is open.
    The run of that text goes on behind the call, up to the end of the first text. -/
theorem stops_at_end_of_top_level_with_open_call :
    ∃ (before : List Exchange) (m₀ m₁ m' : Machine) (written : Sink),
      Transcript {} before m₀ ∧ m₀.calls = [3] ∧ m₀.load "b" "7 8" = .ok m₁ ∧
      m₁.Answers ⟨.run {}, ⟨.ok (), written⟩⟩ m' ∧ m'.image.code.size = 10 ∧
      m'.calls = [] ∧ m'.image = m₁.image ∧ m'.ip + 1 = 7 ∧
      (∃ e ∈ m'.image.dictionary.blocks, e.name = Word.topLevel ∧ e.finish = 7) ∧
      m'.Answers ⟨.run {}, ⟨.ok (), {}⟩⟩ (m'.writingTo {}) := by
  let first : Machine := ({} : Machine).tryLoad ("a", ": f 1 + ; f 5 .")
  let failed : Machine := ((first.writingTo {}).runFor 9).2
  let second : Machine := failed.tryLoad ("b", "7 8")
  let stopped : Machine := ((second.writingTo {}).runFor 9).2
  have hruns : (({} : Machine).load "a" ": f 1 + ; f 5 .").isOk = true ∧
      ((first.writingTo {}).runFor 9).1 = .failed .underflow ∧ failed.calls = [3] ∧
      (failed.load "b" "7 8").isOk = true ∧ ((second.writingTo {}).runFor 9).1 = .halted ∧
      stopped.ip + 1 = 7 ∧ stopped.image.code.size = 10 := by
    decide +kernel
  obtain ⟨hok, hfailed, hcalls, hok', hhalted, hip, hsize⟩ := hruns
  have hload := Machine.load_eq_ok_tryLoad hok'
  have hbefore : Transcript {} _ failed :=
    .cons (Machine.answers_of_load (Machine.load_eq_ok_tryLoad hok))
      (.cons (.failed (Prod.ext hfailed rfl)) .nil)
  have hrun : second.Answers _ stopped := .halted (Prod.ext hhalted rfl)
  obtain ⟨hnone, himage, ⟨e, he, hname, hfinish, -⟩, hagain⟩ :=
    stops_at_end_of_top_level hbefore (Machine.answers_of_load hload) rfl .nil
      (fun y hy => nomatch hy) hrun
  exact ⟨_, failed, second, stopped, _, hbefore, hcalls, hload, hrun, hsize, hnone, himage, hip,
    ⟨e, he, hname, hfinish.symm.trans hip⟩, (hagain {} _ _).2 ⟨rfl, rfl⟩⟩

end Transcript

-- ---------------------------------------------------------------------------
-- The trace of a fault
-- ---------------------------------------------------------------------------

/-- The calls, outermost first, form a chain from the block `top` to the address `p`. -/
structure Image.CallChain (image : Image) (top : Entry) (p : Nat) (trace : List Call) : Prop where
  /-- Each of them names the one block that holds its address. -/
  words : ∀ c ∈ trace, ∃ e, image.BlockAt c.address e ∧ c.word = e.name
  outermost : ∃ c ∈ trace.head?, image.BlockAt c.address top
  innermost : ∃ c ∈ trace.getLast?, c.address = p
  /-- Each of them calls the block that holds the next one. -/
  calls : trace.IsChain fun c c' => ∃ f, image.CallAt c.address f ∧ image.BlockAt c'.address f

namespace Image.Frames

variable {image : Image} {leads : Nat → Entry → Prop} {bottom e : Entry} {calls : List Nat} {p : Nat}

/-- The next instruction and all open calls lie in blocks. -/
theorem exists_block (h : image.Frames leads bottom calls e) (he : e ∈ image.dictionary.blocks)
    (hp : e.covers p = true) :
    ∀ q ∈ p :: calls, ∃ f ∈ image.dictionary.blocks, f.covers q = true := by
  induction h generalizing p with
  | bottom =>
    intro q hq
    obtain rfl := List.mem_singleton.1 hq
    exact ⟨_, he, hp⟩
  | call he' hp' _ _ _ ih =>
    intro q hq
    rcases List.mem_cons.1 hq with rfl | hq
    · exact ⟨_, he, hp⟩
    · exact ih he' hp' q hq

/-- The outermost open call lies in the block `bottom`. -/
theorem covers_outermost (h : image.Frames leads bottom calls e)
    (he : e ∈ image.dictionary.blocks) (hp : e.covers p = true) :
    bottom ∈ image.dictionary.blocks ∧ ∃ q ∈ (p :: calls).getLast?, bottom.covers q = true := by
  induction h generalizing p with
  | bottom => exact ⟨he, p, rfl, hp⟩
  | call he' hp' _ _ _ ih =>
    rw [List.getLast?_cons_cons]
    exact ih he' hp'

/-- Each open call leads to the block in which the next inner address lies. -/
theorem isChain (hbuilt : image.Built) (h : image.Frames image.CallAt bottom calls e)
    (he : e ∈ image.dictionary.blocks) (hp : e.covers p = true) :
    (p :: calls).IsChain fun q c => ∃ f, image.CallAt c f ∧ image.BlockAt q f := by
  induction h generalizing p with
  | bottom => exact .singleton p
  | call he' hp' _ hleads _ ih =>
    exact List.isChain_cons_cons.2 ⟨⟨_, hleads, hbuilt.blockAt he hp⟩, ih he' hp'⟩

end Image.Frames

namespace Machine

variable {m m' : Machine} {top : Entry} {n : Nat}

theorem trace_eq (m : Machine) : m.trace = (m.ip :: m.calls).reverse.map m.callAt := by
  rw [List.reverse_cons]
  rfl

/-- A trace names the word whose block the address lies in. -/
theorem word_callAt {e : Entry} {p : Nat} (hbuilt : m.image.Built)
    (he : e ∈ m.image.dictionary.blocks) (hp : e.covers p = true) : (m.callAt p).word = e.name := by
  rw [callAt, Image.wordName?, hbuilt.entryAt?_of_covers he hp]
  rfl

/-- If every open call leads to the block of the next one, the trace is a chain. -/
theorem Framed.callChain_trace (h : m.Framed m.image.CallAt top) :
    m.image.CallChain top m.ip m.trace := by
  obtain ⟨hbuilt, e, he, hp, hframes⟩ := h
  rw [trace_eq]
  refine ⟨?_, ?_, ?_, ?_⟩
  · intro c hc
    obtain ⟨q, hq, rfl⟩ := List.mem_map.1 hc
    obtain ⟨f, hf, hcovers⟩ := hframes.exists_block he hp q (List.mem_reverse.1 hq)
    exact ⟨f, hbuilt.blockAt hf hcovers, word_callAt hbuilt hf hcovers⟩
  · obtain ⟨htop, q, hq, hcovers⟩ := hframes.covers_outermost he hp
    refine ⟨m.callAt q, ?_, hbuilt.blockAt htop hcovers⟩
    rw [List.head?_map, List.head?_reverse, hq]
    rfl
  · refine ⟨m.callAt m.ip, ?_, rfl⟩
    rw [List.getLast?_map, List.getLast?_reverse]
    rfl
  · rw [List.isChain_map, List.isChain_reverse]
    exact hframes.isChain hbuilt he hp

/-- A run ends with a step that ends it. -/
theorem exists_last_step {status : Status} (h : m.runFor n = (status, m'))
    (hended : status ≠ .running) :
    ∃ k m₁, m.runFor k = (.running, m₁) ∧ m₁.step = (status, m') := by
  induction n generalizing m with
  | zero =>
    cases h
    exact absurd rfl hended
  | succ n ih =>
    rw [runFor] at h
    split at h
    · rename_i m₁ hm₁
      obtain ⟨k, m₂, hk, hstep⟩ := ih h
      refine ⟨k + 1, m₂, ?_, hstep⟩
      rw [runFor, hm₁]
      exact hk
    · exact ⟨0, m, rfl, h⟩

/-- The operations of the first `n` instructions of a run. -/
def operations : Nat → Machine → List (Option Opcode)
  | 0, _ => []
  | n + 1, m =>
    m.image.opcodeAt? m.ip ::
      match m.step with
      | (.running, m') => operations n m'
      | _ => []

/-- Calls open and returns close, and no other operation does. -/
theorem length_calls_of_step (h : m.step = (.running, m')) :
    m'.calls.length + [m.image.opcodeAt? m.ip].count (some .ret) =
      m.calls.length + [m.image.opcodeAt? m.ip].count (some .call) := by
  unfold step at h
  cases hr : m.image.executeAt m.ip m.state with
  | error fault s =>
    rw [hr] at h
    cases h
  | ok flow s =>
    rw [hr] at h
    obtain ⟨i, o, hi, ho, hflow⟩ := Image.exists_of_executeAt hr
    rw [Image.opcodeAt?_of_opcode? hi ho]
    cases o with
    | invalid => cases hflow
    | ret =>
      obtain rfl := List.mem_singleton.1 hflow
      obtain ⟨image, ip, calls, state⟩ := m
      cases calls with
      | nil => cases h
      | cons address calls =>
        cases h
        rfl
    | jumpIfNot =>
      rcases List.mem_pair.1 hflow with rfl | rfl
      all_goals
        cases h
        rfl
    | _ =>
      obtain rfl := List.mem_singleton.1 hflow
      cases h
      rfl

/-- As long as a run goes on, the open calls are those that were open and those that it
    made, without those that returned. -/
theorem length_calls_of_running (h : m.runFor n = (.running, m')) :
    m'.calls.length + (m.operations n).count (some .ret) =
      m.calls.length + (m.operations n).count (some .call) := by
  induction n generalizing m with
  | zero =>
    cases h
    rfl
  | succ n ih =>
    rw [runFor] at h
    split at h
    · rename_i m₁ hm₁
      have hstep := length_calls_of_step hm₁
      have hrest := ih h
      rw [operations, hm₁, ← List.singleton_append, List.count_append, List.count_append]
      dsimp only
      omega
    · rename_i hne
      exact absurd h (hne m')

theorem follow_ne_failed (m : Machine) (flow : Flow) (fault : Fault) :
    (m.follow flow).1 ≠ .failed fault := by
  obtain ⟨image, ip, calls, state⟩ := m
  cases flow with
  | next | jump target | enter target => exact Status.noConfusion
  | leave => cases calls <;> exact Status.noConfusion

/-- A step that fails leaves the machine at its instruction. -/
theorem eq_of_step_failed {fault : Fault} (h : m.step = (.failed fault, m')) :
    m'.ip = m.ip ∧ m'.calls = m.calls := by
  unfold step at h
  split at h
  · exact absurd (congrArg Prod.fst h) (follow_ne_failed _ _ _)
  · cases h
    exact ⟨rfl, rfl⟩

/-- A run that fails with no call open at its start ends at the instruction that fails,
    and its trace has one entry more than there are calls without a return. -/
theorem length_trace_of_failed {fault : Fault} (h : m.runFor n = (.failed fault, m'))
    (hcalls : m.calls = []) :
    ∃ count last, m.runFor count = (.running, last) ∧ last.step = (.failed fault, m') ∧
      last.ip = m'.ip ∧
      m'.trace.length + (m.operations count).count (some .ret) =
        (m.operations count).count (some .call) + 1 := by
  obtain ⟨count, last, hcount, hlast⟩ := exists_last_step h Status.noConfusion
  obtain ⟨hip, hopen⟩ := eq_of_step_failed hlast
  have hdepth := length_calls_of_running hcount
  have hlength : m'.trace.length = last.calls.length + 1 := by simp [trace, hopen]
  rw [hcalls, List.length_nil] at hdepth
  exact ⟨count, last, hcount, hlast, hip.symm, by omega⟩

/-- The report of a fault has a trace and the place of the current word, unless a write
    failed. -/
theorem report_of_ne {fault : Fault} (h : fault ≠ .writeFailed) :
    (m.report fault).trace = some m.trace ∧
      (m.report fault).location = m.currentWord?.map (·.location) := by
  cases fault with
  | writeFailed => exact absurd rfl h
  | _ => exact ⟨rfl, rfl⟩

end Machine

namespace Transcript

variable {before after : List Exchange} {x : Exchange} {m₀ m₁ m m' : Machine} {output : Sink}

/-- As long as no run failed, the trace of a fault is the chain of calls that led from
    the top-level code of the newest text to the instruction that failed. -/
theorem callChain_of_failed {d : Diagnostic} {written : Sink} (hbefore : Transcript {} before m₀)
    (hload : m₀.Answers x m₁) (hx : x.isLoad = true) (hafter : Transcript m₁ after m)
    (hnewest : ∀ y ∈ after, y.isLoad = false) (hok : ∀ y ∈ before ++ after, y.isFailure = false)
    (hrun : m.Answers ⟨.run output, ⟨.error d, written⟩⟩ m') (hd : d ≠ m'.report .writeFailed) :
    ∃ top e trace count last fault,
      m'.image.BlockAt m₁.ip top ∧ top.name = Word.topLevel ∧
        top.finish = m'.image.code.size ∧
      d.trace = some trace ∧ m'.image.CallChain top m'.ip trace ∧
      m'.image.BlockAt m'.ip e ∧ d.location = some e.location ∧
      -- the instruction that failed, and how many calls were open then
      (m.writingTo output).runFor count = (.running, last) ∧ last.step = (.failed fault, m') ∧
        last.ip = m'.ip ∧ d = m'.report fault ∧
      trace.length + ((m.writingTo output).operations count).count (some .ret) =
        ((m.writingTo output).operations count).count (some .call) + 1 := by
  obtain ⟨path, source, hload⟩ := hload.exists_load hx
  have hbuilt := (hbefore.rooted (.inl ⟨rfl, rfl⟩)).built
  have hcalls₀ := hbefore.calls_eq_nil (fun y hy => hok y (List.mem_append_left _ hy)) rfl
  obtain ⟨top, htop, hname, haddress, hfinish, hframed₁⟩ :=
    Machine.framed_of_load m₁.image.CallAt hbuilt hcalls₀ hload
  obtain ⟨hframed, himage⟩ := hafter.framed hnewest hframed₁ fun _ _ hcall => hcall
  have hcalls : m.calls = [] := by
    refine hafter.calls_eq_nil (fun y hy => hok y (List.mem_append_right _ hy)) ?_
    obtain ⟨_, _, _, -, -, rfl⟩ := Machine.exists_phrase_of_load hload
    exact hcalls₀
  cases hrun
  rename_i n fault hrun
  have hfault : fault ≠ .writeFailed := fun heq => hd (heq ▸ rfl)
  obtain ⟨hframed', himage', -⟩ := hframed.run (himage ▸ fun _ _ hcall => hcall) hrun
  rw [himage] at himage'
  rw [← himage'] at hframed' htop hfinish
  obtain ⟨htrace, hlocation⟩ := Machine.report_of_ne (m := m') hfault
  have hchain := hframed'.callChain_trace
  obtain ⟨hbuilt', e, he, hp, -⟩ := hframed'
  obtain ⟨count, last, hcount, hlast, hip, hlength⟩ := Machine.length_trace_of_failed hrun hcalls
  refine ⟨top, e, m'.trace, count, last, fault, ?_, hname, hfinish, htrace, hchain,
    hbuilt'.blockAt he hp, ?_, hcount, hlast, hip, rfl, hlength⟩
  · exact hbuilt'.blockAt htop (haddress ▸ Machine.covers_address hbuilt' htop)
  · rw [hlocation, Machine.currentWord?, hbuilt'.entryAt?_of_covers he hp]
    rfl

/-- The word `f` calls the older definition of `g`, though a newer one was loaded. -/
theorem callChain_of_failed_in_older_word :
    ∃ (before : List Exchange) (m₀ m₁ m' : Machine) (top : Entry),
      Transcript {} before m₀ ∧ (∀ y ∈ before, y.isFailure = false) ∧
      m₀.load "b" ": g 2 . ; f" = .ok m₁ ∧
      m₁.Answers ⟨.run {}, ⟨.error (m'.report .underflow), {}⟩⟩ m' ∧
      (m'.report .underflow).trace = some [⟨9, Word.topLevel⟩, ⟨3, "f"⟩, ⟨1, "g"⟩] ∧
      m'.image.BlockAt m₁.ip top ∧
      m'.image.CallChain top 1 [⟨9, Word.topLevel⟩, ⟨3, "f"⟩, ⟨1, "g"⟩] := by
  let first : Machine := ({} : Machine).tryLoad ("a", ": g 1 + ; : f g ;")
  let halted : Machine := ((first.writingTo {}).runFor 9).2
  let second : Machine := halted.tryLoad ("b", ": g 2 . ; f")
  let failed : Machine := ((second.writingTo {}).runFor 9).2
  have hruns : (({} : Machine).load "a" ": g 1 + ; : f g ;").isOk = true ∧
      ((first.writingTo {}).runFor 9).1 = .halted ∧
      (halted.load "b" ": g 2 . ; f").isOk = true ∧
      ((second.writingTo {}).runFor 9).1 = .failed .underflow ∧ failed.ip = 1 ∧
      failed.state.output = {} ∧
      (failed.report .underflow).trace = some [⟨9, Word.topLevel⟩, ⟨3, "f"⟩, ⟨1, "g"⟩] := by
    decide +kernel
  obtain ⟨hok, hhalted, hok', hfailed, hip, houtput, htrace⟩ := hruns
  have hload := Machine.load_eq_ok_tryLoad hok'
  let log : List Exchange :=
    [⟨.load "a" ": g 1 + ; : f g ;", { result := .ok () }⟩, ⟨.run {}, ⟨.ok (), halted.state.output⟩⟩]
  have hbefore : Transcript {} log halted :=
    .cons (Machine.answers_of_load (Machine.load_eq_ok_tryLoad hok))
      (.cons (.halted (Prod.ext hhalted rfl)) .nil)
  have hclean : ∀ y ∈ log, y.isFailure = false := by
    intro y hy
    rcases List.mem_pair.1 hy with rfl | rfl <;> rfl
  have hrun : second.Answers ⟨.run {}, ⟨.error (failed.report .underflow), failed.state.output⟩⟩
      failed := .failed (Prod.ext hfailed rfl)
  rw [houtput] at hrun
  have hne : failed.report .underflow ≠ failed.report .writeFailed := by
    intro heq
    rw [heq] at htrace
    cases htrace
  obtain ⟨top, -, trace, -, -, -, htop, -, -, htrace', hchain, -⟩ :=
    callChain_of_failed hbefore (Machine.answers_of_load hload) rfl .nil (fun y hy => nomatch hy)
      (by rwa [List.append_nil]) hrun hne
  rw [htrace] at htrace'
  cases htrace'
  rw [hip] at hchain
  exact ⟨log, halted, second, failed, top, hbefore, hclean, hload, hrun, htrace, htop, hchain⟩

end Transcript

end Forth
