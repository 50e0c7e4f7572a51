-- SUMMARY: Isolation: a text that needs no other text means the same whatever was loaded before it.
import Forth.Proofs.Relocation

/-!
# Isolation

A text that can be loaded into a new machine calls only its own words. Loaded behind
other texts it becomes the same code, with addresses moved by the size of the code in
front and constants moved by the size of the pool in front. So both machines run in
step, and a fault is reported with the same words and moved addresses.
-/

namespace Forth

-- ---------------------------------------------------------------------------
-- Relocated instructions
-- ---------------------------------------------------------------------------

theorem Opcode.eq_byte_of_ofByte? {b : UInt8} {o : Opcode} (h : ofByte? b = some o) :
    b = o.byte := by
  unfold ofByte? at h
  split at h <;> cases h <;> rfl

namespace Instruction

/-- The instruction with the argument that it has behind `base` other instructions and
    `pool` other constants. -/
def relocate (base pool : Nat) (i : Instruction) : Instruction :=
  match i.opcode? with
  | some o@.call | some o@.jump | some o@.jumpIfNot => pack o (i.argument + base)
  | some o@.push | some o@.store | some o@.fetch => pack o (i.argument + pool)
  | _ => i

variable {base pool : Nat} {i i' : Instruction}

/-- The argument of an instruction is within the limit, whatever its bits are. -/
theorem argument_le (i : Instruction) : i.argument ≤ argumentLimit := by
  have hlt := i.raw.toNat_lt
  rw [argument, argumentLimit]
  omega

/-- An instruction is its byte and its argument. -/
theorem eq_of_byte_of_argument (hbyte : i'.byte = i.byte) (hargument : i'.argument = i.argument) :
    i' = i := by
  obtain ⟨raw⟩ := i
  obtain ⟨raw'⟩ := i'
  have hmod : raw'.toNat % 256 = raw.toNat % 256 := by
    simpa [byte] using congrArg UInt8.toNat hbyte
  have hdiv : raw'.toNat / 256 = raw.toNat / 256 := hargument
  exact congrArg mk (UInt32.toNat_inj.1 (by omega))

theorem eq_pack {o : Opcode} {argument : Nat} (ho : i.opcode? = some o)
    (hbyte : i'.byte = i.byte) (hargument : i'.argument = argument) : i' = pack o argument := by
  have hfits : argument ≤ argumentLimit := hargument ▸ i'.argument_le
  apply eq_of_byte_of_argument
  · rw [byte_pack, hbyte, Opcode.eq_byte_of_ofByte? ho]
  · rw [argument_pack hfits, hargument]

/-- An instruction moved by a fixed distance is the relocated one. -/
theorem MovedBy.eq_relocate (h : i'.MovedBy (· + base) pool i) : i' = i.relocate base pool := by
  obtain ⟨hbyte, hargument⟩ := h
  unfold relocate
  cases ho : i.opcode? with
  | none =>
    rw [movedArgument, ho] at hargument
    exact eq_of_byte_of_argument hbyte hargument
  | some o =>
    rw [movedArgument_of_opcode? ho] at hargument
    cases o with
    | call | jump | jumpIfNot | push | store | fetch => exact eq_pack ho hbyte hargument
    | _ => exact eq_of_byte_of_argument hbyte hargument

end Instruction

-- ---------------------------------------------------------------------------
-- Linking behind other code
-- ---------------------------------------------------------------------------

/-- Every call among linked ops has an address. -/
theorem Linked.exists_address? {d : Dictionary} {pool address : Nat} {ops : List Op}
    {code : List Instruction} {data : List Value} {o : Op} {name : String}
    (h : Linked d pool address ops code data) (ho : o ∈ ops) (hcall : o.opcode = .call)
    (hname : o.datum = .str name) : ∃ target, d.address? name = some target := by
  induction h with
  | nil => cases ho
  | cons harg _ _ ih =>
    rcases List.mem_cons.1 ho with rfl | ho
    · rw [Op.argument?, hcall, hname] at harg
      exact ⟨_, harg⟩
    · exact ih ho

/-- Ops that call only the words that are placed with them lead to the same places behind
    other code. -/
theorem Linked.correspond {d : Dictionary} {ws : List Word} {ops : List Op} {pool address : Nat}
    {code : List Instruction} {data : List Value}
    (h : Linked (Image.place {} ws) pool address ops code data) :
    Correspond (· + d.nextAddress) (Image.place {} ws) (Image.place d ws) address
      (address + d.nextAddress) ops := by
  intro k o ho
  refine ⟨?_, fun _ => ?_⟩
  · intro hcall name hname
    obtain ⟨target, htarget⟩ := h.exists_address? (List.mem_of_getElem? ho) hcall hname
    rw [Image.address?_place_or, htarget]
    rfl
  · exact (Nat.add_right_comm _ _ _).trans (congrArg (· + o.arg) (Nat.add_right_comm _ _ _))

/-- Where linking behind other code fails, an argument is too large. -/
theorem Linked.tooLarge {image : Image} {d : Dictionary} {ws : List Word} {word : Word} {op : Op}
    {before behind : List Op} {shift : Nat} {code code' : List Instruction}
    {data data' : List Value} {e : LinkError} (h : Linked (Image.place {} ws) 0 0 (before ++ op :: behind) code data)
    (h' : Linked (Image.place d ws) shift d.nextAddress before code' data')
    (hdictionary : image.dictionary = Image.place d ws)
    (hconstants : image.constants.size = data'.length + shift)
    (herror : image.emit word (d.nextAddress + before.length) op = .error e) :
    ∃ i ∈ code, Instruction.argumentLimit < i.movedArgument (· + d.nextAddress) shift ∧
      e = ⟨some word.location,
        .argumentTooLarge (i.movedArgument (· + d.nextAddress) shift) op.opcode word.name⟩ := by
  have hop := (h.correspond (d := d)) before.length op (by simp)
  obtain ⟨code₁, data₁, _, _, rfl, rfl, hbefore, hbehind⟩ := Linked.append_iff.1 h
  cases hbehind with
  | @cons _ _ argument _ _ code₂ data₂ harg hlimit _ =>
    obtain rfl : data' = data₁ := h'.data_eq.trans hbefore.data_eq.symm
    have hmoved := hop.argument? (0 + data'.length) shift
    rw [harg, Nat.zero_add, Nat.zero_add, ← hdictionary, ← hconstants] at hmoved
    rw [Image.emit_of_argument? hmoved] at herror
    refine ⟨.pack op.opcode argument, by simp, ?_⟩
    rw [Instruction.movedArgument_pack hlimit]
    split at herror
    · cases herror
    · rename_i hlarge
      exact ⟨Nat.lt_of_not_le hlarge, (Except.error.inj herror).symm⟩

namespace Image

/-- The entries of the last text are those that it has on its own, moved. -/
theorem take_entries_place (d : Dictionary) (ws : List Word) :
    (place d ws).entries.take ws.length =
      ((place {} ws).entries.take ws.length).map (Entry.moved d.nextAddress) := by
  have hlength : (place {} ws).entries.length = ws.length := by
    simp [place_eq, length_entriesFrom]
  rw [entries_place, List.take_append_of_le_length (by simp [hlength]), List.map_take]

theorem find?_topLevel_moved {d : Dictionary} {ws : List Word} {entry : Entry}
    (h : ((place {} ws).entries.take ws.length).find? (·.name = Word.topLevel) = some entry) :
    ((place d ws).entries.take ws.length).find? (·.name = Word.topLevel) =
      some (entry.moved d.nextAddress) := by
  rw [take_entries_place, List.find?_map]
  exact congrArg (Option.map _) h

section Link

variable {image image' fresh : Image} {ws : List Word} {start start' base pool : Nat}

/-- Words that are linked behind other code become what they become when they are linked
    first, moved. -/
theorem link_relocated (hbase : image.dictionary.nextAddress = base)
    (hpool : image.constants.size = pool) (hfresh : ({} : Image).link ws = .ok (fresh, start))
    (h : image.link ws = .ok (image', start')) :
    (∀ i ∈ fresh.code, (i.relocate base pool).MovedBy (· + base) pool i) ∧ start' = start + base ∧
      image' = { image with dictionary := place image.dictionary ws }.extend
        (fresh.code.toList.map (Instruction.relocate base pool)) fresh.constants.toList := by
  subst hbase hpool
  obtain ⟨code, data, entry, hlinked, rfl, hentry, rfl⟩ := link_eq_ok_iff.1 hfresh
  obtain ⟨code', data', entry', hlinked', rfl, hentry', rfl⟩ := link_eq_ok_iff.1 h
  have hbehind : Linked (place image.dictionary ws) (0 + image.constants.size)
      (0 + image.dictionary.nextAddress) (opsOf ws) code' data' := by
    simpa using hlinked'
  have hmoved := hlinked.moved hbehind hlinked.correspond
  obtain rfl : code' = code.map (Instruction.relocate image.dictionary.nextAddress
      image.constants.size) := by
    rw [← List.forall₂_eq_eq_eq, List.forall₂_map_right_iff]
    exact hmoved.imp fun _ _ hi => hi.eq_relocate
  rw [List.forall₂_map_left_iff, List.forall₂_same] at hmoved
  obtain rfl : data' = data := hlinked'.data_eq.trans hlinked.data_eq.symm
  obtain rfl := Option.some.inj ((find?_topLevel_moved hentry).symm.trans hentry')
  refine ⟨fun i hi => hmoved i ?_, rfl, ?_⟩
  · simpa [extend] using hi
  · simp [extend]

/-- Words that can be linked first can be linked behind other code, unless an argument
    becomes too large. -/
theorem tooLarge_of_link {e : LinkError} (hbase : image.dictionary.nextAddress = base)
    (hpool : image.constants.size = pool) (hfresh : ({} : Image).link ws = .ok (fresh, start))
    (h : image.link ws = .error e) :
    ∃ i ∈ fresh.code, ∃ (word : Word) (o : Opcode),
      Instruction.argumentLimit < i.movedArgument (· + base) pool ∧
      e = ⟨some word.location,
        .argumentTooLarge (i.movedArgument (· + base) pool) o word.name⟩ := by
  subst hbase hpool
  obtain ⟨code, data, entry, hlinked, rfl, hentry, rfl⟩ := link_eq_ok_iff.1 hfresh
  obtain ⟨us, word, vs, front, op, back, code', data', rfl, hops, hlinked', herror⟩ | hnone :=
    exists_of_link_eq_error h
  · have hsplit : opsOf (us ++ word :: vs) = opsOf us ++ front ++ op :: (back ++ opsOf vs) := by
      simp [hops]
    rw [hsplit] at hlinked
    obtain ⟨i, hi, hlarge, rfl⟩ := hlinked.tooLarge hlinked' rfl
      (by simp [extend, Nat.add_comm]) herror
    exact ⟨i, by simpa [extend] using hi, word, op.opcode, hlarge, rfl⟩
  · cases (find?_topLevel_moved hentry).symm.trans hnone

end Link

-- ---------------------------------------------------------------------------
-- Images and reports
-- ---------------------------------------------------------------------------

/-- The entry at a moved address is the moved entry. -/
theorem entryAt?_place {d : Dictionary} {ws : List Word} {p : Nat} {e : Entry}
    (h : (place {} ws).entries.find? (·.address ≤ p) = some e) :
    (place d ws).entryAt? (p + d.nextAddress) =
      ((place {} ws).entryAt? p).map (Entry.moved d.nextAddress) := by
  have hmoved : (place d ws).entries.find? (·.address ≤ p + d.nextAddress) =
      some (e.moved d.nextAddress) := by
    have hle : (fun e : Entry => decide (e.address ≤ p + d.nextAddress)) ∘
        Entry.moved d.nextAddress = fun e => decide (e.address ≤ p) := by
      funext e
      simp [Entry.moved]
    rw [entries_place, List.find?_append, List.find?_map, hle, h]
    rfl
  have hcovers : (e.moved d.nextAddress).covers (p + d.nextAddress) = e.covers p := by
    rw [Bool.eq_iff_iff, Entry.covers_iff, Entry.covers_iff]
    simp only [Entry.moved, Entry.finish]
    omega
  rw [Dictionary.entryAt?, Dictionary.entryAt?, hmoved, h]
  simp only [Option.filter_some, hcovers]
  split <;> rfl

/-- The words of `image` are the words of `image'` that stand `base` addresses further. -/
def NamedBy (image' : Image) (base : Nat) (image : Image) : Prop :=
  ∀ p, p < image.code.size →
    image'.dictionary.entryAt? (p + base) = (image.dictionary.entryAt? p).map (Entry.moved base)

variable {image fresh : Image} {ws : List Word} {base pool : Nat}

/-- An image with relocated code behind its own is moved from the image of that code. -/
theorem movedBy_extend (d : Dictionary) (hbase : image.code.size = base)
    (hpool : image.constants.size = pool)
    (hmoved : ∀ i ∈ fresh.code, (i.relocate base pool).MovedBy (· + base) pool i) :
    ({ image with dictionary := d }.extend (fresh.code.toList.map (Instruction.relocate base pool))
      fresh.constants.toList).MovedBy (· + base) pool fresh := by
  subst hbase hpool
  refine ⟨?_, ?_, fun _ _ => Nat.add_right_comm _ _ _⟩
  · intro p i hi
    refine ⟨i.relocate _ _, ?_, hmoved i (Array.mem_of_getElem? hi)⟩
    rw [instruction?] at hi
    simp [instruction?, extend, Array.getElem?_append_right, hi]
  · intro k v hv
    rw [constant?] at hv
    simp [constant?, extend, Array.getElem?_append_right, hv]

/-- The words of a text have the same names behind other words. -/
theorem namedBy_extend {code : List Instruction} {data : List Value} (hfresh : fresh.Built)
    (hdictionary : fresh.dictionary = place {} ws) (hbase : image.dictionary.nextAddress = base) :
    ({ image with dictionary := place image.dictionary ws }.extend code data).NamedBy base
      fresh := by
  intro p hp
  obtain ⟨e, he, hcovers⟩ := hfresh.tiles.exists_covers (Nat.zero_le p) hp
  have hfound : (fresh.dictionary.entries.find? (·.address ≤ p)).isSome = true := by
    refine List.find?_isSome.2 ⟨e, List.mem_reverse.1 he, ?_⟩
    exact decide_eq_true (Entry.covers_iff.1 hcovers).1
  obtain ⟨e', he'⟩ := Option.isSome_iff_exists.1 hfound
  rw [hdictionary] at he' ⊢
  rw [← hbase]
  exact entryAt?_place he'

end Image

def Call.moved (base : Nat) (c : Call) : Call :=
  { c with address := c.address + base }

def Diagnostic.moved (base : Nat) (d : Diagnostic) : Diagnostic :=
  { d with trace := d.trace.map (·.map (Call.moved base)) }

namespace Machine

variable {m m' : Machine} {base pool p : Nat}

/-- A call at a moved address is the moved call. -/
theorem callAt_moved (h : m'.image.NamedBy base m.image) (hp : p < m.image.code.size) :
    m'.callAt (p + base) = (m.callAt p).moved base := by
  simp only [Machine.callAt, Image.wordName?, h p hp, Option.map_map]
  rfl

/-- The trace of a moved machine is the moved trace. -/
theorem trace_moved (h : m'.MovedBy (· + base) pool m) (hnames : m'.image.NamedBy base m.image)
    (hready : m.Ready) : m'.trace = m.trace.map (Call.moved base) := by
  have haddresses : m'.calls.reverse ++ [m'.ip] =
      (m.calls.reverse ++ [m.ip]).map (· + base) := by
    simp [h.calls, h.ip]
  rw [trace, trace, haddresses, List.map_map, List.map_map]
  apply List.map_congr_left
  intro p hp
  rcases List.mem_append.1 hp with hp | hp
  · exact callAt_moved hnames (Nat.lt_of_succ_lt (hready.calls p (List.mem_reverse.1 hp)))
  · rw [List.mem_singleton.1 hp]
    exact callAt_moved hnames hready.ip

/-- A fault is reported with the same words, at the moved addresses. -/
theorem report_moved (h : m'.MovedBy (· + base) pool m) (hnames : m'.image.NamedBy base m.image)
    (hready : m.Ready) (fault : Fault) : m'.report fault = (m.report fault).moved base := by
  have hlocation : m'.currentWord?.map (·.location) = m.currentWord?.map (·.location) := by
    rw [currentWord?, h.ip, hnames m.ip hready.ip, Option.map_map]
    rfl
  cases fault with
  | writeFailed => rfl
  | _ =>
    simp only [report, trace_moved h hnames hready, hlocation]
    rfl

-- ---------------------------------------------------------------------------
-- Loading behind other texts
-- ---------------------------------------------------------------------------

variable {older fresh : Machine} {path source : String}

/-- A text that can be loaded on its own is refused behind others only if an argument
    gets too large. -/
theorem Unrun.tooLarge_of_load {e : LoadError} (holder : older.Unrun)
    (hbase : older.image.code.size = base) (hpool : older.image.constants.size = pool)
    (hfresh : ({} : Machine).load path source = .ok fresh)
    (h : older.load path source = .error e) :
    ∃ i ∈ fresh.image.code, ∃ (word : Word) (o : Opcode),
      Instruction.argumentLimit < i.movedArgument (· + base) pool ∧
      e = .link ⟨some word.location,
        .argumentTooLarge (i.movedArgument (· + base) pool) o word.name⟩ := by
  have hnext := holder.nextAddress_eq.trans hbase
  obtain ⟨words, image, ip, hwords, hlink, rfl⟩ := load_eq_ok_iff.1 hfresh
  cases hlink' : older.image.link words with
  | ok result =>
    obtain ⟨image', ip'⟩ := result
    cases h.symm.trans (load_eq_ok_iff.2 ⟨words, image', ip', hwords, hlink', rfl⟩)
  | error e' =>
    obtain rfl := Except.error.inj (h.symm.trans (load_of_link_eq_error hwords hlink'))
    obtain ⟨i, hi, word, o, hlarge, rfl⟩ := Image.tooLarge_of_link hnext hpool hlink hlink'
    exact ⟨i, hi, word, o, hlarge, rfl⟩

/-- A text that is loaded behind others adds the relocated code and the constants that
    it has on its own. -/
theorem Unrun.movedBy_of_load {m : Machine} (holder : older.Unrun)
    (hbase : older.image.code.size = base) (hpool : older.image.constants.size = pool)
    (hfresh : ({} : Machine).load path source = .ok fresh)
    (h : older.load path source = .ok m) :
    m.image.code = older.image.code ++ fresh.image.code.map (Instruction.relocate base pool) ∧
      m.image.constants = older.image.constants ++ fresh.image.constants ∧
      m.MovedBy (· + base) pool fresh ∧ m.image.NamedBy base fresh.image := by
  obtain ⟨hbuilt, hcalls, hstate⟩ := holder.kept
  have hfreshBuilt := (Unrun.new.ready_of_load hfresh).image
  have hnext := holder.nextAddress_eq.trans hbase
  obtain ⟨words, image, ip, hwords, hlink, rfl⟩ := load_eq_ok_iff.1 hfresh
  obtain ⟨words', image', ip', hwords', hlink', rfl⟩ := load_eq_ok_iff.1 h
  obtain rfl := Except.ok.inj (hwords.symm.trans hwords')
  obtain ⟨hmoved, rfl, rfl⟩ := Image.link_relocated hnext hpool hlink hlink'
  obtain ⟨_, _, _, -, himage, -⟩ := Image.link_eq_ok_iff.1 hlink
  have hdictionary : image.dictionary = Image.place {} words := himage ▸ rfl
  refine ⟨?_, ?_, ⟨?_, rfl, hcalls, fun _ ha => (nomatch ha), hstate⟩, ?_⟩
  · simp [Image.extend, ← Array.toList_map]
  · simp [Image.extend]
  · exact Image.movedBy_extend _ hbase hpool hmoved
  · exact Image.namedBy_extend hfreshBuilt hdictionary hnext

/-- A text that a new machine can load is too large behind other texts, or it becomes
    the same code, moved behind the code in front. Then both machines run in step: after
    any number of instructions they have the same status and the same stack, variables
    and output, and report a fault in the same way, at the moved addresses. -/
theorem Unrun.load_relocated (holder : older.Unrun) (hbase : older.image.code.size = base)
    (hpool : older.image.constants.size = pool)
    (hfresh : ({} : Machine).load path source = .ok fresh) :
    (∃ i ∈ fresh.image.code, ∃ (word : Word) (o : Opcode),
      Instruction.argumentLimit < i.movedArgument (· + base) pool ∧
      older.load path source = .error (.link ⟨some word.location,
        .argumentTooLarge (i.movedArgument (· + base) pool) o word.name⟩)) ∨
    ∃ m, older.load path source = .ok m ∧
      m.image.code = older.image.code ++ fresh.image.code.map (Instruction.relocate base pool) ∧
      m.image.constants = older.image.constants ++ fresh.image.constants ∧
      ∀ (output : Sink) (n : Nat),
        ((m.writingTo output).runFor n).1 = ((fresh.writingTo output).runFor n).1 ∧
        ((m.writingTo output).runFor n).2.state = ((fresh.writingTo output).runFor n).2.state ∧
        ∀ fault, ((m.writingTo output).runFor n).2.report fault =
          (((fresh.writingTo output).runFor n).2.report fault).moved base := by
  cases hload : older.load path source with
  | error e =>
    obtain ⟨i, hi, word, o, hlarge, rfl⟩ := holder.tooLarge_of_load hbase hpool hfresh hload
    exact .inl ⟨i, hi, word, o, hlarge, rfl⟩
  | ok m =>
    obtain ⟨hcode, hconstants, hmoved, hnames⟩ :=
      holder.movedBy_of_load hbase hpool hfresh hload
    refine .inr ⟨m, rfl, hcode, hconstants, ?_⟩
    intro output n
    have hready := (Unrun.new.ready_of_load hfresh).writingTo output
    obtain ⟨hstatus, hend⟩ := (hmoved.writingTo output).runFor hready n
    refine ⟨hstatus, hend.state, report_moved hend ?_ (hready.runFor n).1⟩
    rw [image_runFor, image_runFor]
    exact hnames

/-- The run fails inside of a word that an older text has too. -/
theorem Unrun.load_relocated_behind_library :
    ∃ older fresh m : Machine, older.Unrun ∧
      ({} : Machine).load "b" ": f 1 + ; 5 if \"x\" f then" = .ok fresh ∧
      older.load "b" ": f 1 + ; 5 if \"x\" f then" = .ok m ∧
      m.image.code = older.image.code ++ fresh.image.code.map (Instruction.relocate 9 2) ∧
      ((m.writingTo {}).runFor 9).1 = .failed (.notAnInteger "string") ∧
      (((m.writingTo {}).runFor 9).2.report (.notAnInteger "string")).trace =
        some [⟨15, "top-level code"⟩, ⟨10, "f"⟩] := by
  let older : Machine := ({} : Machine).tryLoad ("a", ": f 1 . ; : g f 2 . ; g")
  let fresh : Machine := ({} : Machine).tryLoad ("b", ": f 1 + ; 5 if \"x\" f then")
  have hruns : (({} : Machine).load "a" ": f 1 . ; : g f 2 . ; g").isOk = true ∧
      (({} : Machine).load "b" ": f 1 + ; 5 if \"x\" f then").isOk = true ∧
      (older.load "b" ": f 1 + ; 5 if \"x\" f then").isOk = true ∧
      older.image.code.size = 9 ∧ older.image.constants.size = 2 ∧
      ((fresh.writingTo {}).runFor 9).1 = .failed (.notAnInteger "string") ∧
      (((fresh.writingTo {}).runFor 9).2.report (.notAnInteger "string")).trace =
        some [⟨6, "top-level code"⟩, ⟨1, "f"⟩] := by
    decide +kernel
  obtain ⟨holder, hfresh, hok, hcode, hconstants, hstatus, htrace⟩ := hruns
  have hunrun : older.Unrun := .load .new (load_eq_ok_tryLoad holder)
  have hloads := load_eq_ok_tryLoad hfresh
  obtain ⟨_, _, _, _, -, herror⟩ | ⟨m, hload, himage, -, hrun⟩ :=
    hunrun.load_relocated hcode hconstants hloads
  · rw [herror] at hok
    cases hok
  · obtain ⟨hsame, -, hreport⟩ := hrun {} 9
    refine ⟨older, fresh, m, hunrun, hloads, hload, himage, hsame.trans hstatus, ?_⟩
    rw [hreport, Diagnostic.moved, htrace]
    rfl

end Machine

end Forth
