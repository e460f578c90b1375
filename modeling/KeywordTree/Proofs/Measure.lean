import KeywordTree.Choice
import KeywordTree.Proofs.Grouping
import Mathlib.Data.Finset.Card
import Mathlib.Data.Finset.Max

/-! How a column divides words: the number of its letters and the range of their codes, as
they are measured and as they are meant. Both depend on the texts that occur alone. -/
namespace KeywordTree

def statsOf (words : List Word) (column : Nat) : ColumnStats :=
  let codes := words.map (codeIn column)
  { column, distinct := (ascending codes).length, span := (codes.max?).getD 0 - (codes.min?).getD 0 + 1 }

theorem measure_eq_ok {words : List Word} {column : Nat} (hne : words ≠ [])
    (hr : ∀ word ∈ words, column < word.length) :
    ColumnStats.measure words column = .ok (some (statsOf words column)) := by
  rw [ColumnStats.measure, if_neg (by simpa using hne), codesAt_eq_ok hr]
  rfl

theorem measure_eq_error {words : List Word} {column : Nat} (hr : ¬ ∀ word ∈ words, column < word.length) :
    ColumnStats.measure words column = .error (.pastEnd column) := by
  have hne : words ≠ [] := by
    rintro rfl
    exact hr (by simp)
  rw [ColumnStats.measure, if_neg (by simpa using hne), codesAt_eq_error hr]
  rfl

section Measures

def columnCodes (words : List Word) (column : Nat) : Finset Nat :=
  (words.filterMap fun word => word.codeAt? column).toFinset

def letterCount (words : List Word) (column : Nat) : Nat := (columnCodes words column).card

/-- The distance from the least code in a column to the greatest, both included. -/
def codeSpan (words : List Word) (column : Nat) : Nat :=
  (columnCodes words column).max.unbotD 0 - (columnCodes words column).min.untopD 0 + 1

/-- Every word has the column, and all have one letter there. -/
def Constant (words : List Word) (column : Nat) : Prop :=
  ∃ code, ∀ word ∈ words, word.codeAt? column = some code

variable {words : List Word} {column : Nat}

theorem mem_columnCodes {k : Nat} :
    k ∈ columnCodes words column ↔ ∃ word ∈ words, word.codeAt? column = some k := by
  simp [columnCodes]

theorem Constant.reaches (h : Constant words column) : ∀ word ∈ words, column < word.length := by
  obtain ⟨code, hcode⟩ := h
  intro word hw
  have hsome := hcode word hw
  rw [Word.codeAt?, Option.map_eq_some_iff] at hsome
  obtain ⟨letter, hletter, _⟩ := hsome
  exact (List.getElem?_eq_some_iff.mp hletter).1

theorem columnCodes_eq_toFinset (hr : ∀ word ∈ words, column < word.length) :
    columnCodes words column = (words.map (codeIn column)).toFinset := by
  ext k
  rw [mem_columnCodes, List.mem_toFinset, List.mem_map]
  refine exists_congr fun word => and_congr_right fun hw => ?_
  rw [codeAt?_eq_some (hr word hw), Option.some.injEq]

theorem statsOf_distinct (hr : ∀ word ∈ words, column < word.length) :
    (statsOf words column).distinct = letterCount words column := by
  have hset : (ascending (words.map (codeIn column))).toFinset = columnCodes words column := by
    rw [columnCodes_eq_toFinset hr]
    ext k
    rw [List.mem_toFinset, List.mem_toFinset, mem_ascending]
  rw [letterCount, ← hset, List.toFinset_card_of_nodup (nodup_ascending _)]
  rfl

/-- The least and the greatest code of a column, from which both measures of a span come. -/
theorem exists_bounds (hne : words ≠ []) (hr : ∀ word ∈ words, column < word.length) :
    ∃ lo hi, lo ∈ columnCodes words column ∧ hi ∈ columnCodes words column ∧
      (∀ k ∈ columnCodes words column, lo ≤ k ∧ k ≤ hi) ∧
      (statsOf words column).span = hi - lo + 1 ∧ codeSpan words column = hi - lo + 1 := by
  have hcodes : words.map (codeIn column) ≠ [] := by simpa using hne
  have hmem (k : Nat) : k ∈ columnCodes words column ↔ k ∈ words.map (codeIn column) := by
    rw [columnCodes_eq_toFinset hr, List.mem_toFinset]
  obtain ⟨hi, hhi⟩ := Option.isSome_iff_exists.mp (List.isSome_max?_of_ne_nil hcodes)
  obtain ⟨lo, hlo⟩ := Option.isSome_iff_exists.mp (List.isSome_min?_of_ne_nil hcodes)
  obtain ⟨hhimem, hle⟩ := List.max?_eq_some_iff.mp hhi
  obtain ⟨hlomem, hge⟩ := List.min?_eq_some_iff.mp hlo
  rw [← hmem] at hhimem hlomem
  have hmax : (columnCodes words column).max = hi :=
    le_antisymm (Finset.max_le fun k hk => WithBot.coe_le_coe.mpr (hle k ((hmem k).mp hk))) (Finset.le_max hhimem)
  have hmin : (columnCodes words column).min = lo :=
    le_antisymm (Finset.min_le hlomem) (Finset.le_min fun k hk => WithTop.coe_le_coe.mpr (hge k ((hmem k).mp hk)))
  refine ⟨lo, hi, hlomem, hhimem, fun k hk => ⟨hge k ((hmem k).mp hk), hle k ((hmem k).mp hk)⟩, ?_, ?_⟩
  · simp only [statsOf, hhi, hlo, Option.getD_some]
  · rw [codeSpan, hmax, hmin]
    rfl

theorem statsOf_span (hne : words ≠ []) (hr : ∀ word ∈ words, column < word.length) :
    (statsOf words column).span = codeSpan words column := by
  obtain ⟨lo, hi, _, _, _, hstats, hspan⟩ := exists_bounds hne hr
  rw [hstats, hspan]

theorem codeSpan_eq_one_iff (hne : words ≠ []) (hr : ∀ word ∈ words, column < word.length) :
    codeSpan words column = 1 ↔ Constant words column := by
  obtain ⟨lo, hi, hlo, hhi, hbounds, _, hspan⟩ := exists_bounds hne hr
  rw [hspan]
  constructor
  · intro h
    refine ⟨lo, fun word hw => ?_⟩
    have hcode := codeAt?_eq_some (hr word hw)
    have hbound := hbounds (codeIn column word) (mem_columnCodes.mpr ⟨word, hw, hcode⟩)
    rw [hcode, Option.some.injEq]
    omega
  · rintro ⟨code, hcode⟩
    have hall : ∀ k ∈ columnCodes words column, k = code := by
      intro k hk
      obtain ⟨word, hw, hk⟩ := mem_columnCodes.mp hk
      exact Option.some.inj (hk.symm.trans (hcode word hw))
    rw [hall lo hlo, hall hi hhi, Nat.sub_self]

theorem letterCount_eq_one_iff (hne : words ≠ []) (hr : ∀ word ∈ words, column < word.length) :
    letterCount words column = 1 ↔ Constant words column := by
  rw [letterCount, Finset.card_eq_one]
  constructor
  · rintro ⟨code, hcode⟩
    refine ⟨code, fun word hw => ?_⟩
    have hsome := codeAt?_eq_some (hr word hw)
    have hmem := mem_columnCodes.mpr ⟨word, hw, hsome⟩
    rw [hcode, Finset.mem_singleton] at hmem
    rw [hsome, hmem]
  · rintro ⟨code, hcode⟩
    obtain ⟨first, hfirst⟩ := List.exists_mem_of_ne_nil words hne
    refine ⟨code, Finset.eq_singleton_iff_unique_mem.mpr
      ⟨mem_columnCodes.mpr ⟨first, hfirst, hcode first hfirst⟩, fun k hk => ?_⟩⟩
    obtain ⟨word, hw, hk⟩ := mem_columnCodes.mp hk
    exact Option.some.inj (hk.symm.trans (hcode word hw))

theorem letterCount_pos (hne : words ≠ []) (hr : ∀ word ∈ words, column < word.length) :
    0 < letterCount words column := by
  obtain ⟨lo, _, hlo, _⟩ := exists_bounds hne hr
  exact Finset.card_pos.mpr ⟨lo, hlo⟩

end Measures

private theorem max?_eq_of_mem_iff {a b : List Nat} (h : ∀ k, k ∈ a ↔ k ∈ b) : a.max? = b.max? := by
  refine Option.ext fun m => ?_
  rw [List.max?_eq_some_iff, List.max?_eq_some_iff, h m]
  exact and_congr_right fun _ => forall_congr' fun k => by rw [h k]

private theorem min?_eq_of_mem_iff {a b : List Nat} (h : ∀ k, k ∈ a ↔ k ∈ b) : a.min? = b.min? := by
  refine Option.ext fun m => ?_
  rw [List.min?_eq_some_iff, List.min?_eq_some_iff, h m]
  exact and_congr_right fun _ => forall_congr' fun k => by rw [h k]

namespace SameTexts

variable {a b : List Word}

theorem statsOf_eq (h : SameTexts a b) (column : Nat) : statsOf a column = statsOf b column := by
  have hcodes : ∀ k, k ∈ a.map (codeIn column) ↔ k ∈ b.map (codeIn column) := h.mem_map_iff (codeOf column)
  simp only [statsOf, ascending_eq_of_mem_iff hcodes, max?_eq_of_mem_iff hcodes, min?_eq_of_mem_iff hcodes]

/-- How a column divides words depends on their texts alone, also where it cannot be read. -/
theorem measure_eq (h : SameTexts a b) (column : Nat) :
    ColumnStats.measure a column = ColumnStats.measure b column := by
  by_cases hne : a = []
  · rw [hne, h.eq_nil_iff.mp hne]
  · have hrange := h.forall_iff fun letters => column < letters.length
    by_cases hr : ∀ word ∈ a, column < word.length
    · rw [measure_eq_ok hne hr, measure_eq_ok (mt h.eq_nil_iff.mpr hne) (hrange.mp hr), h.statsOf_eq]
    · rw [measure_eq_error hr, measure_eq_error (mt hrange.mpr hr)]

end SameTexts

end KeywordTree
