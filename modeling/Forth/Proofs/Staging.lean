-- SUMMARY: Linking in place is linking: a linker stages what it adds, and a failed link leaves the image as it was.
import Forth.Machine
import Forth.Proofs.Linking

/-!
# Staging

The linker that works in place follows the one that makes a new image: at every op,
the image with everything that is staged is the image that the other one has made so
far. Until the stage is committed, no action touches the image itself. So both make
the same image of the same words, fail with the same error, and a failure leaves the
image as it was.
-/

namespace Forth

-- ---------------------------------------------------------------------------
-- Staging ops
-- ---------------------------------------------------------------------------

namespace Linker

theorem get_eq (l : Linker) : (get : Linking Linker) l = .ok l l := rfl

/-- A name has the same address before and after the stage is committed. -/
theorem address?_committed (l : Linker) (name : String) :
    l.committed.dictionary.address? name = l.address? name := by
  rw [address?, Dictionary.address?, Dictionary.find?, committed, List.find?_append]
  cases l.stage.entries.find? (·.name = name) with
  | some entry => rfl
  | none => rfl

theorem committed_addInstruction (l : Linker) (i : Instruction) :
    ({ l with stage.code := l.stage.code.push i } : Linker).committed =
      l.committed.addInstruction i := by
  simp [committed, Image.addInstruction]

theorem committed_addConstant (l : Linker) (v : Value) :
    ({ l with stage.constants := l.stage.constants.push v } : Linker).committed =
      l.committed.addConstant v := by
  simp [committed, Image.addConstant]

/-- The action does to the image with everything that is staged what `f` does to an
    image, and fails as `f` does. The image itself and the staged blocks stay as they
    are. -/
def Stages (a : Linking Unit) (f : Image → Except LinkError Image) : Prop :=
  ∀ l : Linker,
    (∃ l', a l = .ok () l' ∧ l'.image = l.image ∧ l'.stage.entries = l.stage.entries ∧
      f l.committed = .ok l'.committed) ∨
    ∃ e l', a l = .error e l' ∧ l'.image = l.image ∧ f l.committed = .error e

/-- The argument of an op is the one that it has in the image with everything that is
    staged. -/
theorem resolve_cases (word : Word) (address : Nat) (op : Op) (l : Linker) :
    (∃ argument l', resolve word address op l = .ok argument l' ∧ l'.image = l.image ∧
      l'.stage.entries = l.stage.entries ∧ l.committed.resolve word address op = .ok argument ∧
      l'.committed = if op.opcode.usesPool then l.committed.addConstant op.datum else l.committed) ∨
    ∃ e, resolve word address op l = .error e l ∧
      l.committed.resolve word address op = .error e := by
  unfold resolve Image.resolve
  cases op.opcode with
  | call =>
    unfold target
    cases op.datum with
    | void | int n => exact .inr ⟨_, rfl, rfl⟩
    | str name =>
      simp only [address?_committed]
      cases l.address? name with
      | none => exact .inr ⟨_, rfl, rfl⟩
      | some target => exact .inl ⟨target, l, rfl, rfl, rfl, rfl, rfl⟩
  | push | store | fetch =>
    refine .inl ⟨_, _, rfl, rfl, rfl, ?_, committed_addConstant l op.datum⟩
    simp [committed]
  | _ => exact .inl ⟨_, l, rfl, rfl, rfl, rfl, rfl⟩

/-- Emitting an op to the stage is emitting it to the image. -/
theorem stages_emit (word : Word) (address : Nat) (op : Op) :
    Stages (emit word address op) (·.emit word address op) := by
  intro l
  simp only [emit, Image.emit, bind, EStateM.bind, Except.bind]
  obtain ⟨argument, l', hresolve, himage, hentries, hpure, hcommitted⟩ | ⟨e, hresolve, hpure⟩ :=
    resolve_cases word address op l
  · simp only [hresolve, hpure, ← hcommitted]
    split
    · exact .inl ⟨_, rfl, himage, hentries, congrArg _ (committed_addInstruction l' _).symm⟩
    · -- the datum of the op stays staged, but the image has not seen it
      exact .inr ⟨_, l', rfl, himage, rfl⟩
  · simp only [hresolve, hpure]
    exact .inr ⟨e, l, rfl, rfl, rfl⟩

/-- Steps that stage what they do to an image do so one after the other. -/
theorem stages_forM {α : Type} {a : α → Linking Unit} {f : Image → α → Except LinkError Image}
    (h : ∀ x, Stages (a x) (f · x)) (xs : List α) : Stages (forM xs a) (xs.foldlM f ·) := by
  induction xs with
  | nil => exact fun l => .inl ⟨l, rfl, rfl, rfl, rfl⟩
  | cons x xs ih =>
    intro l
    simp only [List.forM_cons, List.foldlM_cons, bind, EStateM.bind, Except.bind]
    obtain ⟨l₁, hok, himage, hentries, hpure⟩ | ⟨e, l₁, herror, himage, hpure⟩ := h x l
    · simp only [hok, hpure]
      obtain ⟨l₂, hok', himage', hentries', hpure'⟩ | ⟨e, l₂, herror, himage', hpure'⟩ := ih l₁
      · exact .inl ⟨l₂, hok', himage'.trans himage, hentries'.trans hentries, hpure'⟩
      · exact .inr ⟨e, l₂, herror, himage'.trans himage, hpure'⟩
    · simp only [herror, hpure]
      exact .inr ⟨e, l₁, rfl, himage, rfl⟩

/-- Placing words adds one staged entry for each of them, and never fails. -/
theorem forM_place (words : List Word) (l : Linker) :
    forM words place l = .ok () { l with
      stage.entries := (entriesFrom l.nextAddress words).reverse ++ l.stage.entries } := by
  induction words generalizing l with
  | nil => rfl
  | cons w words ih =>
    simp only [List.forM_cons, bind, EStateM.bind, place, ih]
    simp [entriesFrom, nextAddress, Entry.finish]

end Linker

-- ---------------------------------------------------------------------------
-- Linking and loading in place
-- ---------------------------------------------------------------------------

/-- Linking in place makes the image that linking makes, and a link that fails leaves
    the image as it was. -/
theorem Image.linkInPlace_eq (words : List Word) (image : Image) :
    linkInPlace words image =
      match image.link words with
      | .ok (image', start) => .ok start image'
      | .error e => .error e image := by
  let placed : Linker :=
    { image, stage.entries := (entriesFrom image.dictionary.nextAddress words).reverse }
  have hnext : ({ image } : Linker).nextAddress = image.dictionary.nextAddress := rfl
  have hplaced : forM words Linker.place { image } = .ok () placed := by
    rw [Linker.forM_place]
    simp [placed, hnext]
  have hcommitted : placed.committed = { image with dictionary := place image.dictionary words } := by
    simp [placed, Linker.committed, place_eq]
  have hentries :
      (place image.dictionary words).entries.take words.length = placed.stage.entries := by
    simp [placed, place_eq, length_entriesFrom]
  have hsites := Linker.stages_forM (fun site => Linker.stages_emit site.1.1 site.2 site.1.2)
    (sites image.dictionary.nextAddress words) placed
  rw [hcommitted] at hsites
  simp only [linkInPlace, Linker.link, link, bind, EStateM.bind, Except.bind, Linker.get_eq,
    hnext, hplaced, hentries]
  obtain ⟨l, hok, himage, hl, hpure⟩ | ⟨e, l, herror, himage, hpure⟩ := hsites
  · simp only [hok, hpure, hl]
    cases placed.stage.entries.find? (·.name = Word.topLevel) with
    | none => exact congrArg _ himage
    | some entry => rfl
  · simp only [herror, hpure]
    exact congrArg _ himage

namespace Machine

variable {m m' : Machine} {path source : String}

/-- A load in place is a load. It leaves the machine as it was if it fails. -/
theorem loadInPlace_eq (m : Machine) (path source : String) :
    loadInPlace path source m =
      match m.load path source with
      | .ok m' => .ok () m'
      | .error e => .error e m := by
  unfold loadInPlace load
  cases wordsOfSource path source with
  | error e => rfl
  | ok words =>
    simp only [Image.linkInPlace_eq]
    cases m.image.link words with
    | error e => rfl
    | ok linked => rfl

theorem load_of_loadInPlace_ok (h : loadInPlace path source m = .ok () m') :
    m.load path source = .ok m' := by
  rw [loadInPlace_eq] at h
  cases hload : m.load path source with
  | ok m₁ =>
    rw [hload] at h
    cases h
    rfl
  | error e =>
    rw [hload] at h
    cases h

/-- A text that can not be loaded leaves the machine as it was. -/
theorem load_of_loadInPlace_error {e : LoadError} (h : loadInPlace path source m = .error e m') :
    m.load path source = .error e ∧ m' = m := by
  rw [loadInPlace_eq] at h
  cases hload : m.load path source with
  | ok m₁ =>
    rw [hload] at h
    cases h
  | error e' =>
    rw [hload] at h
    cases h
    exact ⟨rfl, rfl⟩

end Machine

end Forth
