-- SUMMARY: Look-ups by name and by address: what they give behind any entries, empty blocks and old names included.
import Forth.Dictionary.Directory
import Mathlib.Algebra.GroupWithZero.Nat
import Mathlib.Data.Finset.Card

/-!
# Look-ups

What a look-up gives is said of the list of all entries that were inserted, in the order
of their insertion. An address below the first free one lies in exactly one block, and
a look-up by address gives that block. A look-up by name gives the last entry with that
name. Both a dictionary and a directory, which keeps two tables, give these answers.
-/

namespace Forth

-- ---------------------------------------------------------------------------
-- What look-ups give
-- ---------------------------------------------------------------------------

/-- What look-ups give behind the entries `es`, the oldest first: the first free address,
    the entry at an address, the entry of a name, and the number of names. -/
structure Lookups (es : List Entry) (next : Nat) (entryAt? : Nat → Option Entry)
    (find? : String → Option Entry) (size : Nat) : Prop where
  next_eq : next = (es.map (·.size)).sum
  /-- An address below the first free one lies in one block only, and is found there. -/
  inside : ∀ address, address < next →
    ∃ (i : Nat) (e : Entry), es[i]? = some e ∧
      (e.address ≤ address ∧ address < e.address + e.size) ∧
      (∀ (j : Nat) (f : Entry), es[j]? = some f →
        f.address ≤ address ∧ address < f.address + f.size → j = i) ∧
      entryAt? address = some e
  outside : ∀ address, next ≤ address → entryAt? address = none
  /-- The entry of a name is the last one that has it. -/
  newest : ∀ name e, find? name = some e ↔
    ∃ before behind, es = before ++ e :: behind ∧ e.name = name ∧ ∀ f ∈ behind, f.name ≠ name
  missing : ∀ name, find? name = none ↔ ∀ e ∈ es, e.name ≠ name
  size_eq : size = (es.map (·.name)).toFinset.card

/-- A directory and a dictionary after the insertion of entries, the oldest first, each
    at the first address behind all blocks. -/
inductive Inserted : List Entry → Directory → Dictionary → Prop where
  | new : Inserted [] {} {}
  | insert {es : List Entry} {t : Directory} {d : Dictionary} {e : Entry} :
      Inserted es t d → e.address = t.nextAddress →
      Inserted (es ++ [e]) (t.insert e) (d.define e.name e.location e.size)

-- ---------------------------------------------------------------------------
-- Dictionaries
-- ---------------------------------------------------------------------------

/-- A new block is found at its own addresses, and the older blocks at all addresses
    below. -/
theorem Dictionary.entryAt?_define (d : Dictionary) (name : String) (location : Location)
    (size address : Nat) :
    (d.define name location size).entryAt? address =
      if address < d.nextAddress then d.entryAt? address
      else if address < d.nextAddress + size then some ⟨location, name, d.nextAddress, size⟩
      else none := by
  unfold entryAt? define
  by_cases hnext : address < d.nextAddress
  · rw [List.find?_cons_of_neg (by simpa using hnext), if_pos hnext]
  · have hle : d.nextAddress ≤ address := Nat.le_of_not_lt hnext
    rw [List.find?_cons_of_pos (by simpa using hle), if_neg hnext]
    by_cases hsize : address < d.nextAddress + size
    all_goals simp [Entry.covers, Entry.finish, hle, hsize]

theorem length_eraseDups (names : List String) :
    names.eraseDups.length = names.toFinset.card := by
  induction hn : names.length using Nat.strongRecOn generalizing names with
  | _ n ih =>
    cases names with
    | nil => rfl
    | cons name names =>
      subst hn
      let others := names.filter fun other => !other == name
      have hlt : others.length < (name :: names).length :=
        Nat.lt_succ_of_le (List.length_filter_le _ names)
      have hsame : insert name names.toFinset = insert name others.toFinset := by
        ext other
        by_cases h : other = name <;> simp [others, h]
      have hname : name ∉ others.toFinset := by simp [others]
      rw [List.eraseDups_cons, List.length_cons, ih _ hlt others rfl, List.toFinset_cons, hsame,
        Finset.card_insert_of_notMem hname]

namespace Inserted

variable {es : List Entry} {t : Directory} {d : Dictionary} {e : Entry} {address : Nat}

/-- In both, the first free address is the sum of the sizes of all entries. -/
theorem nextAddress_eq (h : Inserted es t d) :
    t.nextAddress = d.nextAddress ∧ d.nextAddress = (es.map (·.size)).sum := by
  induction h with
  | new => exact ⟨rfl, rfl⟩
  | @insert es t d e _ haddress ih =>
    have hnext : (t.insert e).nextAddress = t.nextAddress + e.size := by
      simp [Directory.nextAddress, Directory.insert, Entry.finish, haddress]
    rw [hnext, Dictionary.nextAddress_define, ih.1, ih.2]
    simp

theorem entries_eq (h : Inserted es t d) : d.entries = es.reverse := by
  induction h with
  | new => rfl
  | insert h haddress ih =>
    rw [h.nextAddress_eq.1] at haddress
    simp [Dictionary.define, ih, ← haddress]

/-- No entry goes beyond the first free address. -/
theorem finish_le (h : Inserted es t d) (he : e ∈ es) : e.finish ≤ d.nextAddress := by
  induction h with
  | new => cases he
  | insert h haddress ih =>
    rw [h.nextAddress_eq.1] at haddress
    rw [Dictionary.nextAddress_define]
    rcases List.mem_append.1 he with he | he
    · exact Nat.le_trans (ih he) (Nat.le_add_right _ _)
    · obtain rfl := List.mem_singleton.1 he
      rw [Entry.finish, haddress]

/-- The blocks lie one behind the other. -/
theorem ordered (h : Inserted es t d) : es.Pairwise fun e f => e.finish ≤ f.address := by
  induction h with
  | new => exact .nil
  | insert h haddress ih =>
    rw [h.nextAddress_eq.1] at haddress
    refine List.pairwise_append.2 ⟨ih, List.pairwise_singleton _ _, ?_⟩
    intro f hf e he
    obtain rfl := List.mem_singleton.1 he
    exact haddress ▸ h.finish_le hf

/-- Of the blocks that hold an address there is one only. -/
theorem eq_of_covers (h : Inserted es t d) {i j : Nat} {f : Entry} (hi : es[i]? = some e)
    (hj : es[j]? = some f) (he : e.address ≤ address ∧ address < e.address + e.size)
    (hf : f.address ≤ address ∧ address < f.address + f.size) : j = i := by
  obtain ⟨hi', rfl⟩ := List.getElem?_eq_some_iff.1 hi
  obtain ⟨hj', rfl⟩ := List.getElem?_eq_some_iff.1 hj
  have hordered := List.pairwise_iff_getElem.1 h.ordered
  rcases Nat.lt_trichotomy i j with hlt | rfl | hlt
  · have hbehind := hordered i j hi' hj' hlt
    rw [Entry.finish] at hbehind
    omega
  · rfl
  · have hbehind := hordered j i hj' hi' hlt
    rw [Entry.finish] at hbehind
    omega

/-- Every address in use lies in an entry, and that entry is found. -/
theorem exists_entryAt? (h : Inserted es t d) (hlt : address < d.nextAddress) :
    ∃ e ∈ es, (e.address ≤ address ∧ address < e.address + e.size) ∧
      d.entryAt? address = some e := by
  induction h with
  | new => cases hlt
  | @insert es t d e h haddress ih =>
    rw [h.nextAddress_eq.1] at haddress
    rw [Dictionary.nextAddress_define] at hlt
    rw [Dictionary.entryAt?_define]
    by_cases hold : address < d.nextAddress
    · obtain ⟨f, hf, hcovers, hfound⟩ := ih hold
      exact ⟨f, List.mem_append_left _ hf, hcovers, by rw [if_pos hold, hfound]⟩
    · have hle : e.address ≤ address := haddress ▸ Nat.le_of_not_lt hold
      refine ⟨e, by simp, ⟨hle, haddress ▸ hlt⟩, ?_⟩
      rw [if_neg hold, if_pos hlt, ← haddress]

/-- No entry is found at an address that is not in use. -/
theorem entryAt?_eq_none (h : Inserted es t d) (hle : d.nextAddress ≤ address) :
    d.entryAt? address = none := by
  cases h with
  | new => rfl
  | insert h haddress =>
    rw [Dictionary.nextAddress_define] at hle
    rw [Dictionary.entryAt?_define, if_neg (by omega), if_neg (by omega)]

/-- The look-ups of a dictionary. -/
theorem lookups_dictionary (h : Inserted es t d) :
    Lookups es d.nextAddress d.entryAt? d.find? d.size where
  next_eq := h.nextAddress_eq.2
  inside := by
    intro address hlt
    obtain ⟨e, he, hcovers, hfound⟩ := h.exists_entryAt? hlt
    obtain ⟨i, hi⟩ := List.mem_iff_getElem?.1 he
    exact ⟨i, e, hi, hcovers, fun j f hj hf => h.eq_of_covers hi hj hcovers hf, hfound⟩
  outside := fun _ => h.entryAt?_eq_none
  newest := by
    intro name e
    rw [Dictionary.find?, h.entries_eq, List.find?_eq_some_iff_append]
    constructor
    · rintro ⟨hname, behind, before, hsplit, hbehind⟩
      refine ⟨before.reverse, behind.reverse, ?_, by simpa using hname, ?_⟩
      · rw [← List.reverse_reverse es, hsplit]
        simp
      · intro f hf
        simpa using hbehind f (List.mem_reverse.1 hf)
    · rintro ⟨before, behind, rfl, hname, hbehind⟩
      refine ⟨by simpa using hname, behind.reverse, before.reverse, by simp, ?_⟩
      intro f hf
      simpa using hbehind f (List.mem_reverse.1 hf)
  missing := by
    intro name
    rw [Dictionary.find?, h.entries_eq, List.find?_eq_none]
    simp
  size_eq := by
    rw [Dictionary.size, h.entries_eq, length_eraseDups, List.map_reverse, List.toFinset_reverse]

end Inserted

-- ---------------------------------------------------------------------------
-- Directories
-- ---------------------------------------------------------------------------

/-- Halving finds the number where `p` changes, if it changes once. -/
theorem lt_firstFailing_iff {p : Nat → Bool} {low high : Nat}
    (hp : ∀ i j, i ≤ j → p j = true → p i = true) (hlow : ∀ i, i < low → p i = true)
    (hhigh : ∀ i, high ≤ i → p i = false) (i : Nat) :
    i < firstFailing p low high ↔ p i = true := by
  fun_induction firstFailing p low high with
  | case1 low high hlt middle hmiddle ih =>
    refine ih ?_ hhigh
    intro j hj
    exact hp j middle (Nat.le_of_lt_succ hj) hmiddle
  | case2 low high hlt middle hmiddle ih =>
    refine ih hlow ?_
    intro j hj
    by_contra hfails
    exact hmiddle (hp middle j hj (Bool.not_eq_false _ ▸ hfails))
  | case3 low high hge =>
    constructor
    · exact hlow i
    · intro hi
      by_contra hlt
      rw [hhigh i (Nat.le_trans (Nat.le_of_not_lt hge) (Nat.le_of_not_lt hlt))] at hi
      cases hi

namespace Inserted

variable {es : List Entry} {t : Directory} {d : Dictionary} {address : Nat}

theorem blocks_eq (h : Inserted es t d) : t.blocks = es.toArray := by
  induction h with
  | new => rfl
  | insert h haddress ih => simp [Directory.insert, ih]

/-- The entries that start at an address or in front of it are counted. -/
theorem lt_countUpTo_iff (h : Inserted es t d) (address i : Nat) :
    i < t.countUpTo address ↔ ∃ e, es[i]? = some e ∧ e.address ≤ address := by
  have hblock : ∀ i : Nat, t.blocks[i]?.any (·.address ≤ address) = true ↔
      ∃ e, es[i]? = some e ∧ e.address ≤ address := by
    intro i
    simp [h.blocks_eq, Option.any_eq_true]
  rw [← hblock, Directory.countUpTo]
  refine lt_firstFailing_iff ?_ (fun j hj => absurd hj (Nat.not_lt_zero j)) ?_ i
  · intro i j hij hj
    obtain ⟨f, hf, hle⟩ := (hblock j).1 hj
    obtain ⟨hj', rfl⟩ := List.getElem?_eq_some_iff.1 hf
    refine (hblock i).2 ⟨es[i], List.getElem?_eq_getElem _, ?_⟩
    rcases Nat.lt_or_eq_of_le hij with hlt | rfl
    · have hbehind := List.pairwise_iff_getElem.1 h.ordered i j (Nat.lt_trans hlt hj') hj' hlt
      exact Nat.le_trans (Nat.le_add_right _ _) (Nat.le_trans hbehind hle)
    · exact hle
  · intro j hj
    simp [Array.getElem?_eq_none hj]

/-- The block in front of the first one behind an address is the last one that starts at
    the address or in front of it. -/
theorem entryAt?_eq (h : Inserted es t d) (address : Nat) :
    t.entryAt? address = d.entryAt? address := by
  have hcount := h.lt_countUpTo_iff address
  rw [Directory.entryAt?, Dictionary.entryAt?, h.entries_eq]
  split
  · rename_i hzero
    have hnone : es.reverse.find? (·.address ≤ address) = none := by
      rw [List.find?_eq_none]
      intro e he hle
      obtain ⟨i, hi⟩ := List.mem_iff_getElem?.1 (List.mem_reverse.1 he)
      have hlt := (hcount i).2 ⟨e, hi, by simpa using hle⟩
      rw [hzero] at hlt
      cases hlt
    rw [hnone]
    rfl
  · rename_i i hsucc
    obtain ⟨e, he, hle⟩ := (hcount i).1 (hsucc ▸ Nat.lt_succ_self i)
    have hsplit : es.take i ++ e :: es.drop (i + 1) = es := by
      obtain ⟨hi, rfl⟩ := List.getElem?_eq_some_iff.1 he
      rw [List.cons_getElem_drop_succ, List.take_append_drop]
    have hbehind : ∀ f ∈ es.drop (i + 1), ¬ f.address ≤ address := by
      intro f hf hle'
      obtain ⟨j, hj⟩ := List.mem_iff_getElem?.1 hf
      rw [List.getElem?_drop] at hj
      have hlt := (hcount (i + 1 + j)).2 ⟨f, hj, hle'⟩
      omega
    have hsome : es.reverse.find? (·.address ≤ address) = some e := by
      rw [← hsplit, List.reverse_append, List.reverse_cons, List.append_assoc, List.find?_append,
        List.find?_eq_none.2 (by simpa using hbehind)]
      simp [hle]
    rw [hsome, h.blocks_eq, List.getElem?_toArray, he]

/-- A name is found in the directory as it is in the dictionary. -/
theorem names_eq (h : Inserted es t d) (name : String) : t.find? name = d.find? name := by
  induction h with
  | new => simp [Directory.find?, Dictionary.find?]
  | @insert es t d e h haddress ih =>
    rw [h.nextAddress_eq.1] at haddress
    rw [Directory.find?] at ih ⊢
    rw [Directory.insert, Std.HashMap.getElem?_insert, ih]
    by_cases hname : e.name = name
    · rw [if_pos (by simpa using hname), ← hname, Dictionary.find?_define_self, ← haddress]
    · rw [if_neg (by simpa using hname), d.find?_define_of_ne _ _ hname]

/-- A directory counts the different names. -/
theorem size_eq (h : Inserted es t d) : t.size = (es.map (·.name)).toFinset.card := by
  induction h with
  | new => rfl
  | @insert es t d e h haddress ih =>
    have hmem : e.name ∈ t.names ↔ e.name ∈ (es.map (·.name)).toFinset := by
      rw [Std.HashMap.mem_iff_isSome_getElem?, ← Option.ne_none_iff_isSome]
      have hfind : t.names[e.name]? = none ↔ ∀ f ∈ es, f.name ≠ e.name := by
        rw [← h.lookups_dictionary.missing, ← h.names_eq, Directory.find?]
      rw [ne_eq, hfind]
      simp
    have hinsert : ((es ++ [e]).map (·.name)).toFinset =
        Insert.insert e.name (es.map (·.name)).toFinset := by
      ext name
      simp
    rw [Directory.size] at ih ⊢
    rw [Directory.insert, Std.HashMap.size_insert, ih, hinsert, Finset.card_insert_eq_ite]
    simp only [hmem]

/-- Whatever entries are inserted, a directory and a dictionary find them by their
    addresses and by their names. -/
theorem lookups_exact (h : Inserted es t d) :
    Lookups es t.nextAddress t.entryAt? t.find? t.size ∧
      Lookups es d.nextAddress d.entryAt? d.find? d.size := by
  have hdictionary := h.lookups_dictionary
  have hsize : t.size = d.size := h.size_eq.trans hdictionary.size_eq.symm
  rw [h.nextAddress_eq.1, funext h.entryAt?_eq, funext h.names_eq, hsize]
  exact ⟨hdictionary, hdictionary⟩

/-- Empty blocks at the start, in the middle and at the end, and a name that is given
    three times. -/
theorem lookups_exact_with_empty_blocks :
    ∃ (es : List Entry) (t : Directory) (d : Dictionary), Inserted es t d ∧
      es.map (fun e => (e.name, e.address, e.size)) =
        [("a", 0, 0), ("b", 0, 2), ("a", 2, 0), ("a", 2, 3), ("c", 5, 0)] ∧
      Lookups es t.nextAddress t.entryAt? t.find? t.size ∧
      d.entryAt? 1 = es[1]? ∧ d.entryAt? 2 = es[3]? ∧ d.entryAt? 5 = none ∧
      d.find? "a" = es[3]? ∧ d.size = 3 := by
  let entry (name : String) (address size : Nat) : Entry := ⟨{}, name, address, size⟩
  have h₁ := Inserted.new.insert (e := entry "a" 0 0) rfl
  have h₂ := h₁.insert (e := entry "b" 0 2) rfl
  have h₃ := h₂.insert (e := entry "a" 2 0) rfl
  have h₄ := h₃.insert (e := entry "a" 2 3) rfl
  have h₅ := h₄.insert (e := entry "c" 5 0) rfl
  exact ⟨_, _, _, h₅, rfl, (lookups_exact h₅).1, by decide, by decide, by decide, by decide,
    by decide⟩

end Inserted

end Forth
