-- SUMMARY: Programs without recursion end: a run can only go on forever if calls between blocks form a cycle.
import Forth.Proofs.Safety
import Forth.Proofs.Simulation
import Mathlib.Order.WellFoundedSet

/-!
# Termination

Inside of a block every instruction leads forward, up to the return at its end. Only
a call leaves the block before that, and it comes back behind itself when the called
block returns. If no cycle of calls can be reached from a block, then a run through
it takes finitely many instructions, whatever values it works on: by induction along
the calls, and inside of a block by induction on the distance to its end.
-/

namespace Forth

-- ---------------------------------------------------------------------------
-- Calls between blocks
-- ---------------------------------------------------------------------------

namespace Image

/-- One of the instructions of the block `e` is a call of the block `f`. -/
def Calls (image : Image) (e f : Entry) : Prop :=
  e ∈ image.dictionary.blocks ∧ f ∈ image.dictionary.blocks ∧
    ∃ p i, e.covers p = true ∧ image.instruction? p = some i ∧ i.opcode? = some .call ∧
      i.argument = f.address

/-- No cycle of calls can be reached from the block `e`. -/
def NoRecursion (image : Image) (e : Entry) : Prop :=
  ∀ f, Relation.ReflTransGen image.Calls e f → ¬ Relation.TransGen image.Calls f f

variable {image : Image} {e f : Entry} {p : Nat}

/-- Only finitely many blocks are reached by calls. -/
theorem finite_reachable (image : Image) (e : Entry) :
    {f | Relation.ReflTransGen image.Calls e f}.Finite := by
  apply ((List.finite_toSet image.dictionary.blocks).insert e).subset
  intro f hf
  rcases Relation.ReflTransGen.cases_tail hf with rfl | ⟨g, -, hg⟩
  · exact Set.mem_insert _ _
  · exact Set.mem_insert_of_mem _ hg.2.1

/-- Without recursion every chain of calls ends. -/
theorem NoRecursion.acc (h : image.NoRecursion e) : Acc (Function.swap image.Calls) e := by
  refine (Set.WellFoundedOn.acc_iff_wellFoundedOn.out 1 0).1 ?_
  -- on the blocks that can be reached, being called through others is a finite strict order
  let r (a b : {f | Relation.ReflTransGen (Function.swap image.Calls) f e}) : Prop :=
    Relation.TransGen image.Calls b.1 a.1
  have hfinite : Finite {f | Relation.ReflTransGen (Function.swap image.Calls) f e} := by
    simp only [Relation.reflTransGen_swap]
    exact (finite_reachable image e).to_subtype
  have htrans : IsTrans _ r := ⟨fun a b c hab hbc => hbc.trans hab⟩
  have hirrefl : Std.Irrefl r := ⟨fun a ha => h a.1 (Relation.reflTransGen_swap.1 a.2) ha⟩
  exact Subrelation.wf (fun hab => .single hab) (Finite.wellFounded_of_trans_of_irrefl r)

/-- There is no recursion if every call leads to a block of a lower rank. -/
theorem noRecursion_of_rank (rank : Entry → Nat) (h : ∀ e f, image.Calls e f → rank f < rank e)
    (e : Entry) : image.NoRecursion e := by
  intro f _ hcycle
  have hlt : ∀ g, Relation.TransGen image.Calls f g → rank g < rank f := by
    intro g hg
    induction hg with
    | single hcall => exact h _ _ hcall
    | tail _ hcall ih => exact Nat.lt_trans (h _ _ hcall) ih
  exact Nat.lt_irrefl _ (hlt f hcycle)

/-- Where the program goes on behind the instruction at `p` of the block `e`: further
    in the block, in a block that it calls, or behind the return at its end. -/
def Within (image : Image) (e : Entry) (p : Nat) : Flow → Prop
  | .next => p + 1 < e.finish
  | .jump target => p < target ∧ target < e.finish
  | .enter target => p + 1 < e.finish ∧ ∃ f, image.Calls e f ∧ f.address = target
  | .leave => p + 1 = e.finish

theorem Built.exists_instruction? (h : image.Built) (he : e ∈ image.dictionary.blocks)
    (hp : e.covers p = true) : ∃ i, image.instruction? p = some i := by
  have hlt : p < image.code.size :=
    Nat.lt_of_lt_of_le (Entry.covers_iff.1 hp).2 (h.tiles.bounds he).2
  exact ⟨_, Array.getElem?_eq_getElem hlt⟩

/-- No instruction leads out of its block, but for calls and the return at the end. -/
theorem Built.within_of_executeAt (h : image.Built) (he : e ∈ image.dictionary.blocks)
    (hp : e.covers p = true) {s s' : State} {flow : Flow}
    (hflow : image.executeAt p s = .ok flow s') : image.Within e p flow := by
  obtain ⟨i, _, hi, hbyte, hmem⟩ := exists_of_executeAt hflow
  obtain ⟨-, o, hopcode, -, -, hplace⟩ := h.exists_op hi he hp
  obtain rfl := Option.some.inj (hbyte.symm.trans hopcode)
  rcases hplace with ⟨rfl, hlast⟩ | ⟨hsound, hnext⟩
  · obtain rfl := List.mem_singleton.1 hmem
    exact hlast
  · have hjump : i.opcode? = some .jump ∨ i.opcode? = some .jumpIfNot →
        p < i.argument ∧ i.argument < e.finish := fun hj => h.wellFormed.jumps p i hi hj e he hp
    unfold Op.Sound at hsound
    cases hcase : o.opcode with
    | invalid | ret =>
      rw [hcase] at hsound
      exact hsound.elim
    | call =>
      rw [hcase] at hmem hopcode
      obtain rfl := List.mem_singleton.1 hmem
      obtain ⟨f, hf, haddress⟩ := h.wellFormed.calls p i hi hopcode
      exact ⟨hnext, f, ⟨he, hf, p, i, hp, hi, hopcode, haddress.symm⟩, haddress⟩
    | jump =>
      rw [hcase] at hmem hopcode
      obtain rfl := List.mem_singleton.1 hmem
      exact hjump (.inl hopcode)
    | jumpIfNot =>
      rw [hcase] at hmem hopcode
      rcases List.mem_pair.1 hmem with rfl | rfl
      · exact hnext
      · exact hjump (.inr hopcode)
    | _ =>
      rw [hcase] at hmem
      obtain rfl := List.mem_singleton.1 hmem
      exact hnext

end Image

-- ---------------------------------------------------------------------------
-- Runs through blocks
-- ---------------------------------------------------------------------------

namespace Machine

variable {m m' : Machine} {e : Entry} {n : Nat}

def Ends (m : Machine) : Prop :=
  ∃ n, (m.runFor n).1 ≠ .running

/-- The run of the machine ends, or it comes to the return of the block `e` with the
    calls that are open now. -/
def Passes (m : Machine) (e : Entry) : Prop :=
  m.Ends ∨ ∃ n m', m.runFor n = (.running, m') ∧ m'.image = m.image ∧ m'.calls = m.calls ∧
    m'.ip + 1 = e.finish

theorem Ends.of_running (h : m.runFor n = (.running, m')) (hends : m'.Ends) : m.Ends := by
  obtain ⟨k, hk⟩ := hends
  refine ⟨n + k, ?_⟩
  rwa [runFor_of_running h]

/-- A run passes a block if it does from a later point on, with the same calls open. -/
theorem Passes.of_running (h : m.runFor n = (.running, m')) (himage : m'.image = m.image)
    (hcalls : m'.calls = m.calls) (hpasses : m'.Passes e) : m.Passes e := by
  rcases hpasses with hends | ⟨k, m₁, hrun, himage₁, hcalls₁, hip⟩
  · exact .inl (hends.of_running h)
  · exact .inr ⟨n + k, m₁, (runFor_of_running h k).trans hrun, himage₁.trans himage,
      hcalls₁.trans hcalls, hip⟩

/-- At the last instruction of a block a machine returns. -/
theorem step_of_last (hbuilt : m.image.Built) (he : e ∈ m.image.dictionary.blocks)
    (hlast : m.ip + 1 = e.finish) : m.step = m.follow .leave := by
  have hp : e.covers m.ip = true := by
    have hsize := (hbuilt.tiles.bounds he).1
    unfold Entry.finish at hlast
    exact Entry.covers_iff.2 ⟨by omega, by unfold Entry.finish; omega⟩
  obtain ⟨i, hi⟩ := hbuilt.exists_instruction? he hp
  have hret : i.opcode? = some .ret := (hbuilt.wellFormed.returns _ i hi).2 ⟨e, he, hlast⟩
  rw [step, Image.executeAt_of_opcode? hi hret]
  rfl

theorem covers_address {image : Image} (hbuilt : image.Built) (he : e ∈ image.dictionary.blocks) :
    e.covers e.address = true :=
  Entry.covers_iff.2 ⟨Nat.le_refl _, Nat.lt_add_of_pos_right (hbuilt.tiles.bounds he).1⟩

/-- A run passes through a block from which no cycle of calls can be reached. -/
theorem passes_of_acc (hbuilt : m.image.Built) (he : e ∈ m.image.dictionary.blocks)
    (hacc : Acc (Function.swap m.image.Calls) e) (hp : e.covers m.ip = true) : m.Passes e := by
  generalize himage : m.image = image at hbuilt he hacc
  induction hacc generalizing m with
  | intro e _ ih =>
    -- every step inside of the block leaves less of it
    induction hk : e.finish - m.ip using Nat.strongRecOn generalizing m with
    | ind k ihk =>
      subst hk himage
      have hlt := (Entry.covers_iff.1 hp).2
      have hgo : ∀ {m₁ : Machine} {n : Nat}, m.runFor n = (.running, m₁) → m₁.image = m.image →
          m₁.calls = m.calls → m.ip < m₁.ip → m₁.ip < e.finish → m.Passes e := by
        intro m₁ n hrun himage hcalls hip hfinish
        refine Passes.of_running hrun himage hcalls (ihk _ (by omega) ?_ himage rfl)
        exact Entry.covers_iff.2 ⟨Nat.le_trans (Entry.covers_iff.1 hp).1 (Nat.le_of_lt hip), hfinish⟩
      cases hr : m.image.executeAt m.ip m.state with
      | error fault s =>
        refine .inl ⟨1, ?_⟩
        rw [runFor_one, step, hr]
        exact Status.noConfusion
      | ok flow s =>
        have hstep : m.runFor 1 = { m with state := s }.follow flow := by
          rw [runFor_one, step, hr]
        have hwithin := hbuilt.within_of_executeAt he hp hr
        cases flow with
        | next => exact hgo hstep rfl rfl (Nat.lt_succ_self _) hwithin
        | jump target => exact hgo hstep rfl rfl hwithin.1 hwithin.2
        | enter target =>
          obtain ⟨hnext, f, hcall, rfl⟩ := hwithin
          have hf : f ∈ m.image.dictionary.blocks := hcall.2.1
          let m₁ : Machine := { m with ip := f.address, calls := m.ip :: m.calls, state := s }
          have hcallee : m₁.Passes f := ih f hcall (m := m₁) (covers_address hbuilt hf) rfl hf
          rcases hcallee with hends | ⟨n, m₂, hrun, himage, hcalls, hlast⟩
          · exact .inl (hends.of_running hstep)
          · -- the called block returns behind the call
            have hleave : m₂.step = (.running, { m₂ with ip := m.ip + 1, calls := m.calls }) := by
              rw [step_of_last (himage ▸ hbuilt) (himage ▸ hf) hlast, follow, hcalls]
            have hback : m.runFor (1 + (n + 1)) = m₂.step :=
              (runFor_of_running hstep (n + 1)).trans (runFor_succ hrun)
            exact hgo (hback.trans hleave) himage rfl (Nat.lt_succ_self _) hnext
        | leave => exact .inr ⟨0, m, rfl, rfl, rfl, hwithin⟩

/-- Without recursion a block that nothing has called ends the run. -/
theorem ends_of_noRecursion (hbuilt : m.image.Built) (he : e ∈ m.image.dictionary.blocks)
    (hnone : m.image.NoRecursion e) (hip : m.ip = e.address) (hcalls : m.calls = []) : m.Ends := by
  have hp : e.covers m.ip = true := hip ▸ covers_address hbuilt he
  rcases passes_of_acc hbuilt he hnone.acc hp with hends | ⟨n, m₁, hrun, himage, hcalls₁, hlast⟩
  · exact hends
  · refine ⟨n + 1, ?_⟩
    rw [runFor_succ hrun, step_of_last (himage ▸ hbuilt) (himage ▸ he) hlast, follow, hcalls₁,
      hcalls]
    exact Status.noConfusion

-- ---------------------------------------------------------------------------
-- Sessions without errors
-- ---------------------------------------------------------------------------

theorem calls_of_follow {flow : Flow} (h : m.follow flow = (.halted, m')) : m'.calls = [] := by
  obtain ⟨image, ip, calls, state⟩ := m
  cases flow with
  | next | jump target | enter target => cases h
  | leave =>
    cases calls with
    | nil =>
      cases h
      rfl
    | cons address calls => cases h

/-- A step that halts leaves no call open. -/
theorem calls_of_step (h : m.step = (.halted, m')) : m'.calls = [] := by
  unfold step at h
  split at h
  · exact calls_of_follow h
  · cases h

/-- A program that halts leaves no call open. -/
theorem calls_of_halted (h : m.runFor n = (.halted, m')) : m'.calls = [] := by
  induction n generalizing m with
  | zero => cases h
  | succ n ih =>
    rw [runFor] at h
    split at h
    · exact ih h
    · exact calls_of_step h

/-- The machine goes on at the newest block of top-level code. -/
theorem find?_topLevel_of_load {path source : String} (h : m.load path source = .ok m') :
    ∃ top, m'.image.dictionary.find? Word.topLevel = some top ∧ top.address = m'.ip := by
  obtain ⟨p, image, ip, -, hlink, rfl⟩ := exists_phrase_of_load h
  obtain rfl := Image.start_of_link hlink rfl
  obtain ⟨code, data, entry, -, rfl, -⟩ := Image.link_eq_ok_iff.1 hlink
  exact ⟨_, Image.find?_place_last m.image.dictionary p.definedWords _, rfl⟩

end Machine

/-- A session that starts with a new machine, in which texts are loaded and programs
    are run, and all of that succeeds. Each run has an output of its own. -/
inductive CleanSession : Machine → Prop where
  | new : CleanSession {}
  | load {m m' : Machine} {path source : String} :
      CleanSession m → m.load path source = .ok m' → CleanSession m'
  | run {m m' : Machine} {output : Sink} {n : Nat} :
      CleanSession m → (m.writingTo output).runFor n = (.halted, m') → CleanSession m'

namespace CleanSession

/-- What a session in which all succeeds keeps: the image is built, and no call is open. -/
theorem kept {m : Machine} (h : CleanSession m) : m.image.Built ∧ m.calls = [] := by
  induction h with
  | new => exact ⟨Image.built_empty, rfl⟩
  | load _ hload ih =>
    have hbuilt := Machine.built_of_load ih.1 hload
    obtain ⟨_, _, _, -, -, rfl⟩ := Machine.exists_phrase_of_load hload
    exact ⟨hbuilt, ih.2⟩
  | @run m m' output n _ hrun ih =>
    have himage := (m.writingTo output).image_runFor n
    rw [hrun] at himage
    exact ⟨himage ▸ ih.1, Machine.calls_of_halted hrun⟩

/-- If no cycle of calls can be reached from the top-level code of the newest text,
    then its run ends, whatever the values on the stack and in the variables are. -/
theorem ends_without_recursion {m m' : Machine} {path source : String} (h : CleanSession m)
    (hload : m.load path source = .ok m') :
    ∃ top, m'.image.dictionary.find? Word.topLevel = some top ∧ top.address = m'.ip ∧
      (m'.image.NoRecursion top → ∀ s : State, { m' with state := s }.Ends) := by
  obtain ⟨top, htop, haddress⟩ := Machine.find?_topLevel_of_load hload
  obtain ⟨hbuilt, hcalls⟩ := (h.load hload).kept
  refine ⟨top, htop, haddress, ?_⟩
  intro hnone s
  refine Machine.ends_of_noRecursion hbuilt ?_ hnone haddress.symm hcalls
  exact List.mem_reverse.2 (List.mem_of_find?_eq_some htop)

/-- The first word calls one that is defined behind it, and the second text is loaded
    after a run of the first. -/
theorem ends_without_recursion_forward_call :
    ∃ m m' top, CleanSession m ∧ m.load "b" ": h f f ; h h" = .ok m' ∧
      m'.image.dictionary.find? Word.topLevel = some top ∧ m'.image.NoRecursion top ∧
      ∀ s : State, { m' with state := s }.Ends := by
  let first : Machine := ({} : Machine).tryLoad ("a", ": f dup if g then ; : g 1 . ;")
  let m : Machine := ((first.writingTo {}).runFor 1).2
  let m' : Machine := m.tryLoad ("b", ": h f f ; h h")
  let rank (e : Entry) : Nat := if e.name = "g" then 0 else e.address + 1
  have hruns : (({} : Machine).load "a" ": f dup if g then ; : g 1 . ;").isOk = true ∧
      ((first.writingTo {}).runFor 1).1 = .halted ∧ (m.load "b" ": h f f ; h h").isOk = true ∧
      ∀ e ∈ m'.image.dictionary.blocks, ∀ f ∈ m'.image.dictionary.blocks,
        ∀ p < m'.image.code.size, e.covers p = true →
          (∃ i ∈ m'.image.instruction? p, i.opcode? = some .call ∧ i.argument = f.address) →
          rank f < rank e := by
    decide +kernel
  obtain ⟨hfirst, hhalted, hload, hrank⟩ := hruns
  have hsession : CleanSession m :=
    .run (.load .new (Machine.load_eq_ok_tryLoad hfirst)) (Prod.ext hhalted rfl)
  obtain ⟨top, htop, -, hends⟩ :=
    ends_without_recursion hsession (Machine.load_eq_ok_tryLoad hload)
  have hnone : m'.image.NoRecursion top := by
    refine Image.noRecursion_of_rank rank ?_ top
    rintro e f ⟨he, hf, p, i, hp, hi, hcall⟩
    exact hrank e he f hf p (Array.getElem?_eq_some_iff.1 hi).1 hp ⟨i, hi, hcall⟩
  exact ⟨m, m', top, hsession, Machine.load_eq_ok_tryLoad hload, htop, hnone, hends hnone⟩

end CleanSession

end Forth
