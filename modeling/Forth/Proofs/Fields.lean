-- SUMMARY: Texts in columns and lines: fields without blanks, and numerals and quoted texts that tell their value.
import Forth.Text.Layout
import Forth.Value

/-!
# Fields and lines

A text that is laid out in columns can be read back where a field has no blanks: it
ends at the first blank behind it. A text that is written line by line can be read
back where no line has a line feed. Numerals have no blanks, and a numeral or a
quoted text tells the value that it shows.
-/

namespace Forth

namespace Text

-- ---------------------------------------------------------------------------
-- Fields
-- ---------------------------------------------------------------------------

/-- A text that is not empty and has no blank. -/
structure Solid (s : String) : Prop where
  ne_nil : s.toList ≠ []
  visible : ∀ c ∈ s.toList, isBlank c = false

/-- A text within one line, with no blank at its end. -/
structure Tidy (cs : List Char) : Prop where
  inLine : '\n' ∉ cs
  last : ∃ c ∈ cs.getLast?, isBlank c = false

theorem isBlank_space : isBlank ' ' = true := rfl

theorem Solid.notMem {s : String} {c : Char} (h : Solid s) (hc : isBlank c = true) :
    c ∉ s.toList := by
  intro hmem
  rw [h.visible c hmem] at hc
  cases hc

theorem Solid.tidy {s : String} (h : Solid s) : Tidy s.toList where
  inLine := h.notMem rfl
  last := ⟨s.toList.getLast h.ne_nil, List.getLast?_eq_some_getLast h.ne_nil,
    h.visible _ (List.getLast_mem h.ne_nil)⟩

theorem Tidy.append {as bs : List Char} (ha : '\n' ∉ as) (hb : Tidy bs) : Tidy (as ++ bs) where
  inLine := by simp [ha, hb.inLine]
  last := by
    obtain ⟨c, hc, hvisible⟩ := hb.last
    rw [Option.mem_def] at hc
    exact ⟨c, by rw [List.getLast?_append, hc]; rfl, hvisible⟩

theorem Tidy.cons {c : Char} {cs : List Char} (hc : '\n' ≠ c) (h : Tidy cs) : Tidy (c :: cs) := by
  have hfirst : '\n' ∉ [c] := by simpa using hc
  exact .append hfirst h

theorem Tidy.trimEnd_eq {s : String} (h : Tidy s.toList) : trimEnd s = s := by
  obtain ⟨c, hc, hvisible⟩ := h.last
  obtain ⟨cs, hcs⟩ := List.getLast?_eq_some_iff.1 hc
  rw [trimEnd, hcs, List.reverse_concat, List.dropWhile_cons_of_neg (by simp [hvisible]),
    List.reverse_cons, List.reverse_reverse, ← hcs, String.ofList_toList]

/-- The field in front of a blank is determined by the text. -/
theorem Solid.append_inj {s t : String} {as bs : List Char} (hs : Solid s) (ht : Solid t)
    (ha : ∀ c ∈ as.head?, isBlank c = true) (hb : ∀ c ∈ bs.head?, isBlank c = true)
    (h : s.toList ++ as = t.toList ++ bs) : s = t ∧ as = bs := by
  have hfield : ∀ {s : String} {as : List Char}, Solid s → (∀ c ∈ as.head?, isBlank c = true) →
      (s.toList ++ as).takeWhile (!isBlank ·) = s.toList := by
    intro s as hs ha
    rw [List.takeWhile_append_of_pos (by simpa using hs.visible)]
    cases as with
    | nil => simp
    | cons c as => simp [ha c rfl]
  have hst : s = t := by
    rw [← String.toList_inj, ← hfield hs ha, ← hfield ht hb, h]
  subst hst
  exact ⟨rfl, List.append_cancel_left h⟩

-- ---------------------------------------------------------------------------
-- Numerals and quoted texts
-- ---------------------------------------------------------------------------

theorem isBlank_of_isDigit {c : Char} (h : c.isDigit = true) : isBlank c = false := by
  have hrange : 48 ≤ c.toNat ∧ c.toNat ≤ 57 := Char.isDigit_iff_toNat.1 h
  simp only [isBlank, blankRanges, List.any_cons, List.any_nil, Bool.or_false, Bool.or_eq_false_iff,
    Bool.and_eq_false_iff, decide_eq_false_iff_not]
  omega

theorem isDigit_of_mem_toString {n : Nat} {c : Char} (h : c ∈ (toString n).toList) :
    c.isDigit = true := by
  rw [Nat.toString_eq_repr, Nat.toList_repr] at h
  exact Nat.isDigit_of_mem_toDigits (by decide) (by decide) h

theorem solid_toString (n : Nat) : Solid (toString n) where
  ne_nil := by
    rw [Nat.toString_eq_repr, Nat.toList_repr]
    exact Nat.toDigits_ne_nil
  visible := fun c hc => isBlank_of_isDigit (isDigit_of_mem_toString hc)

theorem toString_injective {m n : Nat} (h : toString m = toString n) : m = n := by
  rw [Nat.toString_eq_repr, Nat.toString_eq_repr, ← String.toList_inj, Nat.toList_repr,
    Nat.toList_repr] at h
  rw [← Nat.ofDigitChars_ten_toDigits (n := m), h, Nat.ofDigitChars_ten_toDigits]

theorem toList_showInt64 (n : Int64) :
    (showInt64 n).toList =
      if 0 ≤ n.toInt then (toString n.toInt.toNat).toList
      else '-' :: (toString (-n.toInt).toNat).toList := by
  rw [showInt64, Int.toString_eq_repr, Int.repr_eq_if]
  split
  · rfl
  · rw [String.toList_append]
    rfl

/-- An integer is shown by digits, and perhaps a sign. -/
theorem mem_showInt64 {n : Int64} {c : Char} (h : c ∈ (showInt64 n).toList) :
    c = '-' ∨ c.isDigit = true := by
  rw [toList_showInt64] at h
  split at h
  · exact .inr (isDigit_of_mem_toString h)
  · exact (List.mem_cons.1 h).imp_right isDigit_of_mem_toString

theorem solid_showInt64 (n : Int64) : Solid (showInt64 n) where
  ne_nil := by
    rw [toList_showInt64]
    split
    · exact (solid_toString _).ne_nil
    · exact List.cons_ne_nil _ _
  visible := by
    intro c hc
    rcases mem_showInt64 hc with rfl | hdigit
    · rfl
    · exact isBlank_of_isDigit hdigit

/-- Integers that are shown alike are the same. -/
theorem showInt64_injective {m n : Int64} (h : showInt64 m = showInt64 n) : m = n := by
  have hminus : ∀ k cs, (toString (k : Nat)).toList ≠ '-' :: cs := by
    intro k cs heq
    have hdigit := isDigit_of_mem_toString (heq ▸ List.mem_cons_self (a := '-'))
    cases hdigit
  rw [← String.toList_inj, toList_showInt64, toList_showInt64] at h
  apply Int64.toInt_inj.1
  split at h <;> split at h
  · have habs := toString_injective (String.toList_inj.1 h)
    omega
  · exact absurd h (hminus _ _)
  · exact absurd h.symm (hminus _ _)
  · have habs := toString_injective (String.toList_inj.1 (List.cons.inj h).2)
    omega

/-- It can be told which character an escape stands for and where it ends. -/
theorem escape_append_inj {c d : Char} {as bs : List Char}
    (h : escape c ++ as = escape d ++ bs) : c = d ∧ as = bs := by
  unfold escape at h
  split at h <;> split at h <;> grind

theorem escape_ne_nil (c : Char) : escape c ≠ [] := by
  unfold escape
  split <;> simp

/-- Texts that are escaped alike are the same. -/
theorem flatMap_escape_injective {as bs : List Char} (h : as.flatMap escape = bs.flatMap escape) :
    as = bs := by
  induction as generalizing bs with
  | nil =>
    cases bs with
    | nil => rfl
    | cons b bs => simp [escape_ne_nil] at h
  | cons a as ih =>
    cases bs with
    | nil => simp [escape_ne_nil] at h
    | cons b bs =>
      rw [List.flatMap_cons, List.flatMap_cons] at h
      obtain ⟨rfl, hrest⟩ := escape_append_inj h
      rw [ih hrest]

/-- Texts that are quoted alike are the same. -/
theorem quote_injective {s t : String} (h : quote s = quote t) : s = t := by
  have hchars := congrArg String.toList h
  simp only [quote, String.toList_ofList, List.cons_append, List.cons.injEq, true_and,
    List.append_cancel_right_eq] at hchars
  exact String.toList_inj.1 (flatMap_escape_injective hchars)

-- ---------------------------------------------------------------------------
-- Lines
-- ---------------------------------------------------------------------------

/-- The lines of a text: what stands in front of each line feed. -/
def lines (s : String) : List String :=
  (s.toList.splitOn '\n').dropLast.map String.ofList

/-- The lines of lines that were joined are those lines. -/
theorem lines_join {ls : List String} (h : ∀ l ∈ ls, '\n' ∉ l.toList) :
    lines (String.join (ls.map (· ++ "\n"))) = ls := by
  induction ls with
  | nil => rfl
  | cons l ls ih =>
    have hrest := ih fun l' hl' => h l' (List.mem_cons_of_mem l hl')
    have htext : (String.join ((l :: ls).map (· ++ "\n"))).toList =
        l.toList ++ '\n' :: (String.join (ls.map (· ++ "\n"))).toList := by
      simp
    rw [lines] at hrest ⊢
    rw [htext, List.splitOn_append_cons_self_of_not_mem (h l List.mem_cons_self),
      List.dropLast_cons_of_ne_nil (List.splitOn_ne_nil _ _), List.map_cons, hrest,
      String.ofList_toList]

theorem join_map_join {α : Type} (ls : List α) (f : α → List String) :
    String.join (ls.map fun a => String.join ((f a).map (· ++ "\n"))) =
      String.join ((ls.flatMap f).map (· ++ "\n")) := by
  rw [← String.toList_inj]
  simp [List.map_flatMap, List.flatMap_assoc, List.flatMap_map]

/-- Groups of lines, each with its last line apart, can be told from all their lines. -/
theorem eq_of_flatMap_groups {α : Type} {P : α → Bool} {gs gs' : List (List α × α)}
    (h : ∀ g ∈ gs, (∀ x ∈ g.1, P x = true) ∧ P g.2 = false)
    (h' : ∀ g ∈ gs', (∀ x ∈ g.1, P x = true) ∧ P g.2 = false)
    (heq : gs.flatMap (fun g => g.1 ++ [g.2]) = gs'.flatMap fun g => g.1 ++ [g.2]) : gs = gs' := by
  have hgroup : ∀ (g : List α × α) rest, (∀ x ∈ g.1, P x = true) → P g.2 = false →
      (g.1 ++ [g.2] ++ rest).takeWhile P = g.1 := by
    intro g rest hg hlast
    rw [List.append_assoc, List.takeWhile_append_of_pos hg]
    simp [hlast]
  induction gs generalizing gs' with
  | nil =>
    cases gs' with
    | nil => rfl
    | cons g' gs' => simp at heq
  | cons g gs ih =>
    cases gs' with
    | nil => simp at heq
    | cons g' gs' =>
      rw [List.flatMap_cons, List.flatMap_cons] at heq
      obtain ⟨hg, hlast⟩ := h g List.mem_cons_self
      obtain ⟨hg', hlast'⟩ := h' g' List.mem_cons_self
      have hfirst : g.1 = g'.1 := by
        rw [← hgroup g _ hg hlast, heq, hgroup g' _ hg' hlast']
      rw [hfirst, List.append_assoc, List.append_assoc] at heq
      obtain ⟨hsecond, hrest⟩ := List.cons.inj (List.append_cancel_left heq)
      rw [Prod.ext hfirst hsecond, ih (fun x hx => h x (List.mem_cons_of_mem g hx))
        (fun x hx => h' x (List.mem_cons_of_mem g' hx)) hrest]

end Text

-- ---------------------------------------------------------------------------
-- Values
-- ---------------------------------------------------------------------------

namespace Value

/-- Every value is shown by a tidy text. -/
theorem tidy_renderQuoted (v : Value) : Text.Tidy v.renderQuoted.toList := by
  cases v with
  | void => exact ⟨by decide, 'd', rfl, rfl⟩
  | int n => exact (Text.solid_showInt64 n).tidy
  | str s =>
    have hescape : ∀ c, '\n' ∉ Text.escape c := by
      intro c
      unfold Text.escape
      split <;> simp_all [eq_comm]
    refine ⟨by simp [renderQuoted, Text.quote, hescape], '"', ?_, rfl⟩
    rw [renderQuoted, Text.quote, String.toList_ofList, Option.mem_def, List.getLast?_concat]

/-- Values that are shown alike are the same, unless one of them is void. -/
theorem eq_of_renderQuoted {v w : Value} (hv : v ≠ .void) (hw : w ≠ .void)
    (h : v.renderQuoted = w.renderQuoted) : v = w := by
  have hquote : ∀ n s, Text.showInt64 n ≠ Text.quote s := by
    intro n s heq
    have hmem : '"' ∈ (Text.showInt64 n).toList := by simp [heq, Text.quote]
    rcases Text.mem_showInt64 hmem with hbad | hbad <;> cases hbad
  cases v with
  | void => exact absurd rfl hv
  | int n =>
    cases w with
    | void => exact absurd rfl hw
    | int m => exact congrArg int (Text.showInt64_injective h)
    | str s => exact absurd h (hquote n s)
  | str s =>
    cases w with
    | void => exact absurd rfl hw
    | int n => exact absurd h.symm (hquote n s)
    | str t => exact congrArg str (Text.quote_injective h)

end Value

end Forth
