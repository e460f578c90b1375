import KeywordTree.Grouping
import Mathlib.Data.List.Nodup
import Mathlib.Data.List.Perm.Basic
import Mathlib.Data.List.Sort

/-! A division into groups loses no word, and equal words stay in one group. The canonical
order of a corpus is the only one in which every word precedes those after it. -/
namespace KeywordTree

def codeIn (column : Nat) (word : Word) : Nat := (word.codeAt? column).getD 0

/-- The code of a word in a column, read off its letters. -/
def codeOf (column : Nat) (letters : List UInt8) : Nat := ((letters[column]?).map UInt8.toNat).getD 0

theorem codeAt?_eq_some {word : Word} {column : Nat} (h : column < word.length) :
    word.codeAt? column = some (codeIn column word) := by
  obtain ⟨code, hc⟩ := Option.isSome_iff_exists.mp (show (word.codeAt? column).isSome by
    simpa [Word.codeAt?, Word.length] using h)
  rw [codeIn, hc, Option.getD_some]

theorem codeIn_congr {a b : Word} (column : Nat) (h : a.letters = b.letters) : codeIn column a = codeIn column b := by
  rw [codeIn, codeIn, Word.codeAt?, Word.codeAt?, h]

theorem length_congr {a b : Word} (h : a.letters = b.letters) : a.length = b.length := congrArg List.length h

theorem codeIn_letter {word : Word} {column : Nat} (h : column < word.length) :
    ∃ code : UInt8, isLetter code = true ∧ codeIn column word = code.toNat ∧
      word.letters[column]? = some code := by
  have hc : word.letters[column]? = some word.letters[column] := List.getElem?_eq_getElem h
  refine ⟨word.letters[column], ?_, ?_, hc⟩
  · exact List.all_eq_true.mp word.lower _ (List.getElem_mem h)
  · rw [codeIn, Word.codeAt?, hc, Option.map_some, Option.getD_some]

theorem codesAt_eq_ok {words : List Word} {column : Nat} (h : ∀ word ∈ words, column < word.length) :
    codesAt words column = .ok (words.map (codeIn column)) := by
  rw [codesAt, if_pos (by simpa using h)]
  rfl

theorem codesAt_eq_error {words : List Word} {column : Nat} (h : ¬ ∀ word ∈ words, column < word.length) :
    codesAt words column = .error (.pastEnd column) := by
  rw [codesAt, if_neg (by simpa using h)]

theorem byColumn_eq_ok {words : List Word} {column : Nat} (h : ∀ word ∈ words, column < word.length) :
    byColumn words column = .ok (groupBy (codeIn column) words) := by
  rw [byColumn, codesAt_eq_ok h]
  rfl

theorem byColumn_inv {words : List Word} {column : Nat} {groups : List (Nat × List Word)}
    (h : byColumn words column = .ok groups) :
    (∀ word ∈ words, column < word.length) ∧ groups = groupBy (codeIn column) words := by
  by_cases hr : ∀ word ∈ words, column < word.length
  · rw [byColumn_eq_ok hr] at h
    exact ⟨hr, (Except.ok.inj h).symm⟩
  · rw [byColumn, codesAt_eq_error hr] at h
    cases h

section Groups

variable (key : Word → Nat) (words : List Word)

def groupOf (k : Nat) : List Word := words.filter fun word => key word == k

variable {key words}

@[simp] theorem mem_groupOf {k : Nat} {word : Word} : word ∈ groupOf key words k ↔ word ∈ words ∧ key word = k := by
  simp [groupOf]

theorem groupOf_ne_nil {k : Nat} (h : k ∈ ascending (words.map key)) : groupOf key words k ≠ [] := by
  obtain ⟨word, hw, rfl⟩ := List.mem_map.mp (mem_ascending.mp h)
  exact List.ne_nil_of_mem (mem_groupOf.mpr ⟨hw, rfl⟩)

theorem groupBy_eq_map : groupBy key words =
    (ascending (words.map key)).map fun k => (k, groupOf key words k) := rfl

theorem map_fst_groupBy : (groupBy key words).map Prod.fst = ascending (words.map key) := by
  simp [groupBy_eq_map, Function.comp_def]

theorem mem_groupBy {group : Nat × List Word} :
    group ∈ groupBy key words ↔ group.1 ∈ words.map key ∧ group.2 = groupOf key words group.1 := by
  rw [groupBy_eq_map, List.mem_map]
  constructor
  · rintro ⟨k, hk, rfl⟩
    exact ⟨mem_ascending.mp hk, rfl⟩
  · rintro ⟨hk, hg⟩
    exact ⟨group.1, mem_ascending.mpr hk, Prod.ext rfl hg.symm⟩

theorem nodup_ascending (keys : List Nat) : (ascending keys).Nodup :=
  (pairwise_ascending keys).imp Nat.ne_of_lt

theorem arms_ne_nil {α : Type} {arms : List (Nat × α)} {keys : List Nat} (hk : arms.map Prod.fst = ascending keys)
    (hne : keys ≠ []) : arms ≠ [] := by
  rintro rfl
  obtain ⟨key, hkey⟩ := List.exists_mem_of_ne_nil keys hne
  have hm := mem_ascending.mpr hkey
  rw [← hk] at hm
  cases hm

/-- The different members of a list in ascending order depend on its members alone. -/
theorem ascending_eq_of_mem_iff {a b : List Nat} (h : ∀ k, k ∈ a ↔ k ∈ b) : ascending a = ascending b := by
  refine (pairwise_ascending a).eq_of_mem_iff (pairwise_ascending b) fun k => ?_
  rw [mem_ascending, mem_ascending]
  exact h k

/-- Taking out one key after another rearranges the words. -/
theorem flatMap_groupOf_perm (key : Word → Nat) {keys : List Nat} (hk : keys.Nodup) (words : List Word)
    (hw : ∀ word ∈ words, key word ∈ keys) : (keys.flatMap (groupOf key words)).Perm words := by
  induction keys generalizing words with
  | nil =>
    have he : words = [] := List.eq_nil_iff_forall_not_mem.mpr fun word h => by simpa using hw word h
    rw [he]
    exact List.Perm.refl _
  | cons k rest ih =>
    obtain ⟨hn, hr⟩ := List.nodup_cons.mp hk
    let others := words.filter fun word => !(key word == k)
    have hi := ih hr others fun word h => by
      obtain ⟨hm, hne⟩ := List.mem_filter.mp h
      rcases List.mem_cons.mp (hw word hm) with he | he
      · simp [he] at hne
      · exact he
    -- Once the key is gone, the other keys select the same words as before.
    have hsame : rest.flatMap (groupOf key words) = rest.flatMap (groupOf key others) := by
      apply List.flatMap_congr
      intro j hj
      have hne : j ≠ k := fun he => hn (he ▸ hj)
      simp only [groupOf, others, List.filter_filter]
      apply List.filter_congr
      intro word _
      by_cases he : key word = j
      · simp [he, hne]
      · simp [he]
    rw [List.flatMap_cons, hsame]
    exact (hi.append_left _).trans (List.filter_append_perm _ words)

theorem flatMap_arms_perm {α : Type} {arms : List (Nat × α)} {content : Nat × α → List Word}
    (hk : arms.map Prod.fst = ascending (words.map key))
    (hc : ∀ arm ∈ arms, (content arm).Perm (groupOf key words arm.1)) : (arms.flatMap content).Perm words := by
  have hw : ∀ word ∈ words, key word ∈ ascending (words.map key) := fun word h =>
    mem_ascending.mpr (List.mem_map_of_mem h)
  refine List.Perm.trans ?_ (flatMap_groupOf_perm key (nodup_ascending _) words hw)
  rw [← hk, List.flatMap_map]
  exact List.Perm.flatMap_left arms hc

end Groups

/-- No two entries of the list have the same text. -/
def Distinct (words : List Word) : Prop := (words.map Word.letters).Nodup

theorem Distinct.perm {a b : List Word} (h : a.Perm b) : Distinct a ↔ Distinct b :=
  (h.map Word.letters).nodup_iff

def copies (words : List Word) (letters : List UInt8) : Nat := (words.map Word.letters).count letters

theorem copies_eq_of_perm {a b : List Word} (h : a.Perm b) (letters : List UInt8) :
    copies a letters = copies b letters :=
  (h.map Word.letters).count_eq letters

theorem distinct_iff_copies {words : List Word} : Distinct words ↔ ∀ letters, copies words letters ≤ 1 :=
  List.nodup_iff_count_le_one

theorem copies_groupOf {key : Word → Nat} (hkey : ∀ a b : Word, a.letters = b.letters → key a = key b)
    (words : List Word) (word : Word) :
    copies (groupOf key words (key word)) word.letters = copies words word.letters := by
  rw [copies, copies, List.count, List.countP_map, List.countP_map, groupOf, List.countP_filter]
  apply List.countP_congr
  intro w _
  simp only [Function.comp_apply, Bool.and_eq_true, beq_iff_eq, and_iff_left_iff_imp]
  exact hkey w word

theorem distinct_iff_groups {key : Word → Nat} (hkey : ∀ a b : Word, a.letters = b.letters → key a = key b)
    (words : List Word) : Distinct words ↔ ∀ k ∈ ascending (words.map key), Distinct (groupOf key words k) := by
  constructor
  · intro h k _
    exact h.sublist (List.Sublist.map Word.letters List.filter_sublist)
  · intro h
    refine distinct_iff_copies.mpr fun letters => ?_
    by_cases hm : letters ∈ words.map Word.letters
    · obtain ⟨word, hw, rfl⟩ := List.mem_map.mp hm
      have hg := h (key word) (mem_ascending.mpr (List.mem_map_of_mem hw))
      rw [← copies_groupOf hkey]
      exact distinct_iff_copies.mp hg word.letters
    · rw [copies, List.count_eq_zero_of_not_mem hm]
      exact Nat.zero_le 1

/-- Lists in which the same texts occur, in any order and number. -/
def SameTexts (a b : List Word) : Prop := ∀ text, text ∈ a.map Word.letters ↔ text ∈ b.map Word.letters

namespace SameTexts

variable {a b : List Word}

theorem of_perm (h : (a.map Word.letters).Perm (b.map Word.letters)) : SameTexts a b := fun _ => h.mem_iff

theorem eq_nil_iff (h : SameTexts a b) : a = [] ↔ b = [] := by
  rw [← List.map_eq_nil_iff (f := Word.letters), ← List.map_eq_nil_iff (f := Word.letters) (l := b),
    List.eq_nil_iff_forall_not_mem, List.eq_nil_iff_forall_not_mem]
  exact forall_congr' fun text => not_congr (h text)

theorem forall_iff (h : SameTexts a b) (p : List UInt8 → Prop) :
    (∀ word ∈ a, p word.letters) ↔ ∀ word ∈ b, p word.letters := by
  rw [← List.forall_mem_map (f := Word.letters), ← List.forall_mem_map (f := Word.letters)]
  exact forall_congr' fun text => by rw [h text]

theorem mem_map_iff (h : SameTexts a b) (key : List UInt8 → Nat) (k : Nat) :
    k ∈ a.map (fun word => key word.letters) ↔ k ∈ b.map fun word => key word.letters := by
  have hcomp (words : List Word) : words.map (fun word => key word.letters) = (words.map Word.letters).map key := by
    rw [List.map_map]
    rfl
  rw [hcomp, hcomp, List.mem_map, List.mem_map]
  exact exists_congr fun text => and_congr_left fun _ => h text

end SameTexts

namespace Word

variable {a b c : Word}

theorem precedes_iff : a.precedes b = true ↔ a.index < b.index ∨ a.index = b.index ∧ a.letters ≤ b.letters := by
  simp [precedes]

theorem precedes_total (a b : Word) : a.precedes b = true ∨ b.precedes a = true := by
  rw [precedes_iff, precedes_iff]
  rcases Nat.lt_trichotomy a.index b.index with hlt | heq | hlt
  · exact .inl (.inl hlt)
  · rcases List.le_total a.letters b.letters with hle | hle
    · exact .inl (.inr ⟨heq, hle⟩)
    · exact .inr (.inr ⟨heq.symm, hle⟩)
  · exact .inr (.inl hlt)

theorem precedes_trans (hab : a.precedes b = true) (hbc : b.precedes c = true) : a.precedes c = true := by
  rw [precedes_iff] at *
  rcases hab with hab | ⟨hab, hl⟩ <;> rcases hbc with hbc | ⟨hbc, hl'⟩
  · exact .inl (Nat.lt_trans hab hbc)
  · exact .inl (hbc ▸ hab)
  · exact .inl (hab ▸ hbc)
  · exact .inr ⟨hab.trans hbc, List.le_trans hl hl'⟩

/-- Index and text together are the whole word, so no two words of a corpus can change
places without being equal. -/
theorem precedes_antisymm (hab : a.precedes b = true) (hba : b.precedes a = true) : a = b := by
  rw [precedes_iff] at hab hba
  have hindex : a.index = b.index := by omega
  have hletters : a.letters = b.letters := by
    rcases hab with hlt | ⟨_, hab⟩
    · omega
    · rcases hba with hlt | ⟨_, hba⟩
      · omega
      · exact List.le_antisymm hab hba
  cases a
  cases b
  cases hindex
  cases hletters
  rfl

end Word

theorem canonical_perm (words : List Word) : (canonical words).Perm words := List.mergeSort_perm words Word.precedes

theorem canonical_pairwise (words : List Word) : (canonical words).Pairwise fun v w => v.precedes w = true := by
  apply List.pairwise_mergeSort
  · intro a b c
    exact Word.precedes_trans
  · intro a b
    rw [Bool.or_eq_true]
    exact Word.precedes_total a b

/-- An arrangement in which every word precedes those after it is the canonical one. -/
theorem eq_canonical_of_pairwise {words sorted : List Word} (hp : sorted.Perm words)
    (hs : sorted.Pairwise fun v w => v.precedes w = true) : sorted = canonical words :=
  (hp.trans (canonical_perm words).symm).eq_of_pairwise (fun _ _ _ _ => Word.precedes_antisymm) hs
    (canonical_pairwise words)

/-- The canonical order in a form that evaluates. -/
theorem canonical_eq_insertionSort (words : List Word) :
    canonical words = words.insertionSort fun v w => v.precedes w = true := by
  have : Std.Total fun v w : Word => v.precedes w = true := ⟨Word.precedes_total⟩
  have : IsTrans Word fun v w => v.precedes w = true := ⟨fun _ _ _ => Word.precedes_trans⟩
  exact (eq_canonical_of_pairwise (List.perm_insertionSort _ words) (List.pairwise_insertionSort _ words)).symm

theorem mem_map_canonical {key : Word → Nat} {words : List Word} {k : Nat} :
    k ∈ (canonical words).map key ↔ k ∈ words.map key :=
  ((canonical_perm words).map key).mem_iff

end KeywordTree
