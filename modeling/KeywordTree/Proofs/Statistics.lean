import KeywordTree.Proofs.Measure
import KeywordTree.Proofs.Partition
import Mathlib.Order.Bounds.Basic
import Mathlib.Order.Interval.Finset.Nat

/-! The measure of a column against a scan that keeps the least and the greatest code it has
met, and against the groups that the column makes. -/
namespace KeywordTree

structure Extent where
  least : UInt8
  greatest : UInt8

namespace Extent

/-- Before the scan the bounds are the wrong way round, so that any code replaces both. -/
def start : Extent := ⟨255, 0⟩

def widen (extent : Extent) (code : UInt8) : Extent where
  least := if code < extent.least then code else extent.least
  greatest := if extent.greatest < code then code else extent.greatest

/-- The bounds are among the codes, and all codes lie between them. -/
structure Encloses (extent : Extent) (codes : List UInt8) : Prop where
  least_mem : extent.least ∈ codes
  greatest_mem : extent.greatest ∈ codes
  between : ∀ code ∈ codes, extent.least ≤ code ∧ code ≤ extent.greatest

theorem start_widen (code : UInt8) : start.widen code = ⟨code, code⟩ := by
  have hcode := code.toNat_lt
  simp only [widen, start, mk.injEq, ite_eq_left_iff, UInt8.lt_iff_toNat_lt, ← UInt8.toNat_inj, UInt8.reduceToNat]
  omega

theorem widen_between (extent : Extent) (code : UInt8) :
    ((extent.widen code).least ≤ extent.least ∧ extent.greatest ≤ (extent.widen code).greatest) ∧
      (extent.widen code).least ≤ code ∧ code ≤ (extent.widen code).greatest := by
  simp only [widen, UInt8.le_iff_toNat_le, UInt8.lt_iff_toNat_lt]
  refine ⟨⟨?_, ?_⟩, ?_, ?_⟩ <;> split <;> omega

theorem Encloses.widen {extent : Extent} {codes : List UInt8} (h : extent.Encloses codes) (code : UInt8) :
    (extent.widen code).Encloses (codes ++ [code]) where
  least_mem := by
    simp only [Extent.widen]
    split
    · exact List.mem_append_right _ List.mem_cons_self
    · exact List.mem_append_left _ h.least_mem
  greatest_mem := by
    simp only [Extent.widen]
    split
    · exact List.mem_append_right _ List.mem_cons_self
    · exact List.mem_append_left _ h.greatest_mem
  between other ho := by
    obtain ⟨⟨hleast, hgreatest⟩, hcode⟩ := extent.widen_between code
    rcases List.mem_append.mp ho with ho | ho
    · obtain ⟨hlow, hhigh⟩ := h.between other ho
      exact ⟨UInt8.le_trans hleast hlow, UInt8.le_trans hhigh hgreatest⟩
    · obtain rfl := List.mem_singleton.mp ho
      exact hcode

/-- A scan of codes ends with their bounds; only without any it stays as it started. -/
theorem encloses_foldl {codes : List UInt8} (hne : codes ≠ []) :
    (codes.foldl Extent.widen start).Encloses codes := by
  have hrun (rest : List UInt8) {extent : Extent} {met : List UInt8} (h : extent.Encloses met) :
      (rest.foldl Extent.widen extent).Encloses (met ++ rest) := by
    induction rest generalizing extent met with
    | nil => rwa [List.foldl_nil, List.append_nil]
    | cons code rest ih =>
      rw [List.foldl_cons, List.append_cons]
      exact ih (h.widen code)
  obtain ⟨first, rest, rfl⟩ := List.exists_cons_of_ne_nil hne
  have hfirst : Encloses ⟨first, first⟩ [first] :=
    ⟨List.mem_cons_self, List.mem_cons_self, fun code hm => by simp [List.mem_singleton.mp hm]⟩
  rw [List.foldl_cons, start_widen]
  exact hrun rest hfirst

end Extent

def extentOf (words : List Word) (column : Nat) : Extent :=
  (words.filterMap fun word => word.letters[column]?).foldl Extent.widen .start

section Bounds

variable {words : List Word} {column : Nat}

theorem mem_columnCodes_iff_letter {k : Nat} :
    k ∈ columnCodes words column ↔
      ∃ letter ∈ words.filterMap fun word => word.letters[column]?, letter.toNat = k := by
  rw [mem_columnCodes]
  simp only [List.mem_filterMap, Word.codeAt?, Option.map_eq_some_iff]
  constructor
  · rintro ⟨word, hw, letter, hletter, hk⟩
    exact ⟨letter, ⟨word, hw, hletter⟩, hk⟩
  · rintro ⟨letter, ⟨word, hw, hletter⟩, hk⟩
    exact ⟨word, hw, letter, hletter, hk⟩

theorem extentOf_bounds (hne : words ≠ []) (hr : ∀ word ∈ words, column < word.length) :
    IsLeast (columnCodes words column) (extentOf words column).least.toNat ∧
      IsGreatest (columnCodes words column) (extentOf words column).greatest.toNat := by
  obtain ⟨first, hfirst⟩ := List.exists_mem_of_ne_nil words hne
  obtain ⟨letter, _, _, hletter⟩ := codeIn_letter (hr first hfirst)
  have hmet : letter ∈ words.filterMap fun word => word.letters[column]? :=
    List.mem_filterMap.mpr ⟨first, hfirst, hletter⟩
  have hscan := Extent.encloses_foldl (List.ne_nil_of_mem hmet)
  have hbetween : ∀ k ∈ columnCodes words column,
      (extentOf words column).least.toNat ≤ k ∧ k ≤ (extentOf words column).greatest.toNat := by
    intro k hk
    obtain ⟨letter, hm, rfl⟩ := mem_columnCodes_iff_letter.mp hk
    obtain ⟨hlow, hhigh⟩ := hscan.between letter hm
    exact ⟨UInt8.le_iff_toNat_le.mp hlow, UInt8.le_iff_toNat_le.mp hhigh⟩
  exact ⟨⟨mem_columnCodes_iff_letter.mpr ⟨_, hscan.least_mem, rfl⟩, fun k hk => (hbetween k hk).1⟩,
    ⟨mem_columnCodes_iff_letter.mpr ⟨_, hscan.greatest_mem, rfl⟩, fun k hk => (hbetween k hk).2⟩⟩

theorem columnCodes_letters {k : Nat} (hk : k ∈ columnCodes words column) : 97 ≤ k ∧ k ≤ 122 := by
  obtain ⟨letter, hm, rfl⟩ := mem_columnCodes_iff_letter.mp hk
  obtain ⟨word, _, hletter⟩ := List.mem_filterMap.mp hm
  have hlower := List.all_eq_true.mp word.lower letter (List.mem_of_getElem? hletter)
  simpa [isLetter, UInt8.le_iff_toNat_le] using hlower

theorem codeSpan_eq_extentOf (hne : words ≠ []) (hr : ∀ word ∈ words, column < word.length) :
    codeSpan words column = (extentOf words column).greatest.toNat - (extentOf words column).least.toNat + 1 := by
  obtain ⟨hleast, hgreatest⟩ := extentOf_bounds hne hr
  obtain ⟨lo, hi, hlo, hhi, hbounds, _, hspan⟩ := exists_bounds hne hr
  rw [hspan, hleast.unique ⟨hlo, fun k hk => (hbounds k hk).1⟩, hgreatest.unique ⟨hhi, fun k hk => (hbounds k hk).2⟩]

theorem letterCount_le_codeSpan (hne : words ≠ []) (hr : ∀ word ∈ words, column < word.length) :
    letterCount words column ≤ codeSpan words column := by
  obtain ⟨lo, hi, hlo, _, hbounds, _, hspan⟩ := exists_bounds hne hr
  have hsub : columnCodes words column ⊆ Finset.Icc lo hi := fun k hk => Finset.mem_Icc.mpr (hbounds k hk)
  have hcard := Finset.card_le_card hsub
  have horder := (hbounds lo hlo).2
  rw [Nat.card_Icc] at hcard
  rw [letterCount, hspan]
  omega

theorem codeSpan_le (hne : words ≠ []) (hr : ∀ word ∈ words, column < word.length) : codeSpan words column ≤ 26 := by
  obtain ⟨lo, hi, hlo, hhi, _, _, hspan⟩ := exists_bounds hne hr
  have := columnCodes_letters hlo
  have := columnCodes_letters hhi
  omega

theorem letterCount_le_length : letterCount words column ≤ words.length :=
  (List.toFinset_card_le _).trans (List.length_filterMap_le _ _)

theorem Divides.length_eq {groups : List (Nat × List Word)}
    (h : Divides (fun word => word.codeAt? column) words groups) : groups.length = letterCount words column := by
  have hkeys : (groups.map Prod.fst).toFinset = columnCodes words column := by
    ext key
    rw [List.mem_toFinset, h.mem_keys, mem_columnCodes]
  rw [letterCount, ← hkeys, List.toFinset_card_of_nodup (h.ascending_keys.imp Nat.ne_of_lt), List.length_map]

end Bounds

/-- The measure of a column that all of some words have. It counts the letters of the column,
and its span runs from the least code to the greatest; a scan of the words finds these, and
their difference as codes does not wrap around. The count is at least one and at most the
number of words and the span, and the span at most 26. Both are one exactly if all words have
the same letter there. The count is also the number of groups that the column makes. -/
theorem measure_exact {words : List Word} {column : Nat} (hne : words ≠ [])
    (hr : ∀ word ∈ words, column < word.length) :
    ∃ distinct span groups, ColumnStats.measure words column = .ok (some ⟨column, distinct, span⟩) ∧
      byColumn words column = .ok groups ∧
      distinct = letterCount words column ∧
      (IsLeast (columnCodes words column) (extentOf words column).least.toNat ∧
        IsGreatest (columnCodes words column) (extentOf words column).greatest.toNat) ∧
      (extentOf words column).least ≤ (extentOf words column).greatest ∧
      span = ((extentOf words column).greatest - (extentOf words column).least).toNat + 1 ∧
      span = (extentOf words column).greatest.toNat - (extentOf words column).least.toNat + 1 ∧
      1 ≤ distinct ∧ distinct ≤ min words.length span ∧ span ≤ 26 ∧
      (span = 1 ↔ distinct = 1) ∧ (distinct = 1 ↔ Constant words column) ∧
      distinct = groups.length := by
  obtain ⟨groups, hg⟩ := byColumn_isOk_iff.mpr hr
  obtain ⟨hleast, hgreatest⟩ := extentOf_bounds hne hr
  have horder : (extentOf words column).least ≤ (extentOf words column).greatest :=
    UInt8.le_iff_toNat_le.mpr (hleast.2 hgreatest.1)
  have hspan := codeSpan_eq_extentOf hne hr
  refine ⟨letterCount words column, codeSpan words column, groups, ?_, hg, rfl, ⟨hleast, hgreatest⟩, horder, ?_, hspan,
    letterCount_pos hne hr, Nat.le_min.mpr ⟨letterCount_le_length, letterCount_le_codeSpan hne hr⟩,
    codeSpan_le hne hr, ?_, letterCount_eq_one_iff hne hr, (byColumn_eq_ok_iff.mp hg).length_eq.symm⟩
  · rw [measure_eq_ok hne hr, ← statsOf_distinct hr, ← statsOf_span hne hr]
    rfl
  · rw [UInt8.toNat_sub_of_le _ _ horder, hspan]
  · rw [codeSpan_eq_one_iff hne hr, letterCount_eq_one_iff hne hr]

/-- The words `vex` and `vow`, each under two indices. -/
def vexVow : List Word :=
  [⟨1, [118, 101, 120], by decide, by decide⟩, ⟨3, [118, 111, 119], by decide, by decide⟩].flatMap
    fun word => [word, { word with index := 7 }]

/-- Four words have two letters in column 1, ten codes apart, and one letter in column 0. -/
theorem measure_exact_vexVow : vexVow ≠ [] ∧ (∀ word ∈ vexVow, 1 < word.length) ∧
    ColumnStats.measure vexVow 1 = .ok (some ⟨1, 2, 11⟩) ∧ letterCount vexVow 1 = 2 ∧
    ((extentOf vexVow 1).greatest - (extentOf vexVow 1).least).toNat = 10 ∧ ¬ Constant vexVow 1 ∧
    (∃ groups, byColumn vexVow 1 = .ok groups ∧ groups.length = 2) ∧
    ColumnStats.measure vexVow 0 = .ok (some ⟨0, 1, 1⟩) ∧ Constant vexVow 0 := by
  have hne : vexVow ≠ [] := by decide
  have hr : ∀ word ∈ vexVow, 1 < word.length := by decide
  have hm : ColumnStats.measure vexVow 1 = .ok (some ⟨1, 2, 11⟩) := by decide +kernel
  have hm' : ColumnStats.measure vexVow 0 = .ok (some ⟨0, 1, 1⟩) := by decide +kernel
  obtain ⟨distinct, span, groups, h, hg, hcount, _, _, hspan, _, _, _, _, _, hconstant, hgroups⟩ := measure_exact hne hr
  obtain ⟨_, _, _, h', _, _, _, _, _, _, _, _, _, _, hconstant', _⟩ :=
    measure_exact hne fun word hw => Nat.zero_lt_of_lt (hr word hw)
  rw [hm] at h
  rw [hm'] at h'
  cases h
  cases h'
  exact ⟨hne, hr, hm, hcount.symm, Nat.succ_injective hspan.symm, fun hc => absurd (hconstant.mpr hc) (by decide),
    ⟨groups, hg, hgroups.symm⟩, hm', hconstant'.mp rfl⟩

end KeywordTree
