import KeywordTree.Verification
import Mathlib.Data.List.Nodup

/-! The strings that a verification tries. No word is among them and none is tried twice;
each substitution puts another letter into one column and leaves the rest, so that without
draws the strings are those that miss a word by one letter. -/
namespace KeywordTree

/-- Repetitions are left out in favour of the first occurrence. -/
theorem unseen_eq_eraseDups (seen : Std.HashSet Candidate) (candidates : List Candidate) :
    unseen seen candidates = (candidates.filter fun candidate => candidate ∉ seen).eraseDups := by
  induction candidates generalizing seen with
  | nil => rfl
  | cons first rest ih =>
    rw [unseen, List.filter_cons]
    by_cases hm : first ∈ seen
    · simp only [Std.HashSet.contains_iff_mem.mpr hm, hm, ih, not_true_eq_false, decide_false, Bool.false_eq_true,
        if_true, if_false]
    · have hothers : rest.filter (fun candidate => candidate ∉ seen.insert first) =
          (rest.filter fun candidate => candidate ∉ seen).filter fun candidate => !candidate == first := by
        rw [List.filter_filter]
        refine List.filter_congr fun candidate _ => ?_
        rw [Bool.eq_iff_iff]
        simp only [Bool.and_eq_true, Bool.not_eq_true', beq_eq_false_iff_ne, decide_eq_true_eq,
          Std.HashSet.mem_insert, beq_iff_eq, not_or]
        exact and_congr_left' ne_comm
      rw [if_neg (mt Std.HashSet.contains_iff_mem.mp hm), ih, hothers, if_pos (by simpa using hm),
        List.eraseDups_cons]

theorem mem_unseen {seen : Std.HashSet Candidate} {candidates : List Candidate} {candidate : Candidate} :
    candidate ∈ unseen seen candidates ↔ candidate ∈ candidates ∧ candidate ∉ seen := by
  rw [unseen_eq_eraseDups, List.mem_eraseDups, List.mem_filter, decide_eq_true_eq]

theorem nodup_unseen (seen : Std.HashSet Candidate) (candidates : List Candidate) :
    (unseen seen candidates).Nodup := by
  induction candidates generalizing seen with
  | nil => exact .nil
  | cons first rest ih =>
    rw [unseen]
    split
    · exact ih seen
    · refine List.nodup_cons.mpr ⟨fun hm => ?_, ih _⟩
      exact (mem_unseen.mp hm).2 Std.HashSet.mem_insert_self

theorem mem_probes {words : List Word} {draws : List Candidate} {candidate : Candidate} :
    candidate ∈ probes words draws ↔
      ((∃ word ∈ words, candidate ∈ word.substitutions) ∨ candidate ∈ draws) ∧
        ∀ word ∈ words, word.letters ≠ candidate := by
  rw [probes, mem_unseen, List.mem_append, List.mem_flatMap, Std.HashSet.mem_ofList, List.contains_iff_mem]
  refine and_congr_right fun _ => ?_
  rw [List.mem_map]
  exact ⟨fun hn word hw he => hn ⟨word, hw, he⟩, fun hn ⟨word, hw, he⟩ => hn word hw he⟩

theorem nodup_probes (words : List Word) (draws : List Candidate) : (probes words draws).Nodup :=
  nodup_unseen _ _

theorem mem_alphabet {letter : UInt8} : letter ∈ alphabet ↔ isLetter letter = true := by
  simp only [alphabet, isLetter, List.mem_map, List.mem_range, Bool.and_eq_true, decide_eq_true_eq,
    UInt8.le_iff_toNat_le]
  constructor
  · rintro ⟨i, hi, rfl⟩
    have hcode : (UInt8.ofNat (97 + i)).toNat = 97 + i := by
      rw [UInt8.toNat_ofNat']
      omega
    rw [hcode]
    exact ⟨Nat.le_add_right 97 i, by change 97 + i ≤ 122; omega⟩
  · rintro ⟨hlow, hhigh⟩
    have hlow : 97 ≤ letter.toNat := hlow
    have hhigh : letter.toNat ≤ 122 := hhigh
    refine ⟨letter.toNat - 97, by omega, ?_⟩
    rw [Nat.add_sub_cancel' hlow, UInt8.ofNat_toNat]

theorem nodup_alphabet : alphabet.Nodup := by decide

namespace Word

def substitutionsAt (word : Word) (column : Nat) : List Candidate :=
  (alphabet.filter fun letter => word.letters[column]? != some letter).map fun letter => word.letters.set column letter

theorem substitutions_eq_flatMap (word : Word) :
    word.substitutions = (List.range word.length).flatMap word.substitutionsAt := rfl

/-- The string is the word but for the letter in one column. -/
structure DiffersAt (word : Word) (column : Nat) (candidate : Candidate) : Prop where
  length_eq : candidate.length = word.length
  ne : candidate[column]? ≠ word.letters[column]?
  same : ∀ k, k ≠ column → candidate[k]? = word.letters[k]?

variable {word : Word} {column : Nat} {candidate : Candidate}

theorem DiffersAt.ne_letters (h : word.DiffersAt column candidate) :
    word.letters ≠ candidate := by
  rintro rfl
  exact h.ne rfl

theorem DiffersAt.column_lt (h : word.DiffersAt column candidate) : column < word.length := by
  by_contra hn
  have hword : word.letters[column]? = none := List.getElem?_eq_none (Nat.not_lt.mp hn)
  have hcandidate : candidate[column]? = none := List.getElem?_eq_none (h.length_eq ▸ Nat.not_lt.mp hn)
  exact h.ne (hcandidate.trans hword.symm)

theorem DiffersAt.eq_set {letter : UInt8} (h : word.DiffersAt column candidate) (hl : candidate[column]? = some letter) :
    word.letters.set column letter = candidate := by
  apply List.ext_getElem?
  intro k
  by_cases hk : k = column
  · subst hk
    rw [List.getElem?_set_self h.column_lt, hl]
  · rw [List.getElem?_set_ne (Ne.symm hk), h.same k hk]

theorem differsAt_of_mem (hc : column < word.length) (h : candidate ∈ word.substitutionsAt column) :
    word.DiffersAt column candidate := by
  obtain ⟨letter, hl, rfl⟩ := List.mem_map.mp h
  have hne : word.letters[column]? ≠ some letter := by simpa using (List.mem_filter.mp hl).2
  refine ⟨List.length_set, ?_, fun k hk => List.getElem?_set_ne hk.symm⟩
  rw [List.getElem?_set_self hc]
  exact hne.symm

/-- The substitutions of a word are all strings of letters that differ from it in one column. -/
theorem mem_substitutions_iff :
    candidate ∈ word.substitutions ↔ (∀ code ∈ candidate, isLetter code = true) ∧ ∃ column, word.DiffersAt column candidate := by
  rw [substitutions_eq_flatMap, List.mem_flatMap]
  simp only [List.mem_range]
  constructor
  · rintro ⟨column, hc, hm⟩
    refine ⟨fun code hcode => ?_, column, differsAt_of_mem hc hm⟩
    obtain ⟨letter, hl, rfl⟩ := List.mem_map.mp hm
    rcases List.mem_or_eq_of_mem_set hcode with hcode | rfl
    · exact List.all_eq_true.mp word.lower code hcode
    · exact mem_alphabet.mp (List.mem_filter.mp hl).1
  · rintro ⟨hletters, column, h⟩
    have hlt : column < candidate.length := h.length_eq ▸ h.column_lt
    have hl := List.getElem?_eq_getElem hlt
    refine ⟨column, h.column_lt, List.mem_map.mpr ⟨candidate[column], List.mem_filter.mpr ⟨?_, ?_⟩, h.eq_set hl⟩⟩
    · exact mem_alphabet.mpr (hletters _ (List.getElem_mem hlt))
    · have hne : word.letters[column]? ≠ some candidate[column] := hl ▸ h.ne.symm
      simpa using hne

theorem length_substitutionsAt (hc : column < word.length) : (word.substitutionsAt column).length = 25 := by
  have hown : word.letters[column] ∈ alphabet :=
    mem_alphabet.mpr (List.all_eq_true.mp word.lower _ (List.getElem_mem hc))
  have hothers : alphabet.filter (fun letter => word.letters[column]? != some letter) =
      alphabet.erase word.letters[column] := by
    rw [nodup_alphabet.erase_eq_filter, List.getElem?_eq_getElem hc]
    apply List.filter_congr
    intro letter _
    simp [bne, eq_comm]
  rw [substitutionsAt, List.length_map, hothers, List.length_erase_of_mem hown]
  rfl

theorem nodup_substitutionsAt (hc : column < word.length) : (word.substitutionsAt column).Nodup := by
  refine List.Nodup.map_on ?_ (nodup_alphabet.filter _)
  intro a _ b _ he
  have hget := congrArg (fun letters : List UInt8 => letters[column]?) he
  simpa [List.getElem?_set_self hc] using hget

theorem nodup_flatMap_substitutionsAt {columns : List Nat} (hn : columns.Nodup)
    (hc : ∀ column ∈ columns, column < word.length) : (columns.flatMap word.substitutionsAt).Nodup := by
  refine List.nodup_flatMap.mpr ⟨fun column hm => nodup_substitutionsAt (hc column hm), ?_⟩
  refine hn.imp_of_mem fun {a b} ha hb hne candidate hma hmb => ?_
  exact (differsAt_of_mem (hc a ha) hma).ne ((differsAt_of_mem (hc b hb) hmb).same a hne)

theorem length_flatMap_substitutionsAt {columns : List Nat} (hc : ∀ column ∈ columns, column < word.length) :
    (columns.flatMap word.substitutionsAt).length = 25 * columns.length := by
  have heach : columns.map (fun column => (word.substitutionsAt column).length) = columns.map fun _ => 25 :=
    List.map_congr_left fun column hm => length_substitutionsAt (hc column hm)
  rw [List.length_flatMap, heach, List.map_const', List.sum_replicate_nat, Nat.mul_comm]

end Word

/-- A string of letters that is no word, but is one except for a single letter. -/
structure NearMiss (words : List Word) (candidate : Candidate) : Prop where
  letters : ∀ code ∈ candidate, isLetter code = true
  not_word : ∀ word ∈ words, word.letters ≠ candidate
  near : ∃ word ∈ words, ∃ column, word.DiffersAt column candidate

theorem mem_probes_nil_iff {words : List Word} {candidate : Candidate} :
    candidate ∈ probes words [] ↔ NearMiss words candidate := by
  simp only [mem_probes, Word.mem_substitutions_iff, List.not_mem_nil, or_false]
  constructor
  · rintro ⟨⟨word, hw, hletters, hnear⟩, hn⟩
    exact ⟨hletters, hn, word, hw, hnear⟩
  · rintro ⟨hletters, hn, word, hw, hnear⟩
    exact ⟨⟨word, hw, hletters, hnear⟩, hn⟩

theorem probes_eq_append (words : List Word) (draws : List Candidate) :
    probes words draws = probes words [] ++
      (draws.filter fun draw => (∀ word ∈ words, word.letters ≠ draw) ∧ draw ∉ probes words []).eraseDups := by
  have hnew : ∀ draw, draw ∉ Std.HashSet.ofList (words.map Word.letters) ↔ ∀ word ∈ words, word.letters ≠ draw := by
    intro draw
    simp [Std.HashSet.mem_ofList]
  simp only [probes, unseen_eq_eraseDups, List.append_nil, List.filter_append, List.eraseDups_append]
  congr 2
  rw [List.removeAll, List.filter_filter]
  refine List.filter_congr fun draw _ => ?_
  rw [Bool.eq_iff_iff]
  simp only [Bool.and_eq_true, Bool.not_eq_true', List.elem_eq_mem, decide_eq_true_eq,
    decide_eq_false_iff_not, List.mem_eraseDups, hnew]
  exact and_comm

/-- What a verification tries. Without draws these are all strings of letters that are no
word and are one except for a single letter, each of them once, also where several words
are as near. Draws add what is new among them, in order and at the first occurrence. So
nothing is tried twice, no word is tried, and if the draws have the lengths of words then
so has all that is tried. -/
theorem probes_exactly_nearMisses (words : List Word) :
    (probes words []).Nodup ∧ (∀ candidate, candidate ∈ probes words [] ↔ NearMiss words candidate) ∧
    ∀ draws : List Candidate,
      probes words draws = probes words [] ++
        (draws.filter fun draw => (∀ word ∈ words, word.letters ≠ draw) ∧ draw ∉ probes words []).eraseDups ∧
      (probes words draws).Nodup ∧ (∀ probe ∈ probes words draws, ∀ word ∈ words, word.letters ≠ probe) ∧
      ((∀ draw ∈ draws, ∃ word ∈ words, draw.length = word.length) →
        ∀ probe ∈ probes words draws, ∃ word ∈ words, probe.length = word.length) := by
  refine ⟨nodup_probes words [], fun _ => mem_probes_nil_iff, fun draws => ⟨probes_eq_append words draws,
    nodup_probes words draws, fun _ hp => (mem_probes.mp hp).2, fun hdraws probe hp => ?_⟩⟩
  rcases (mem_probes.mp hp).1 with ⟨word, hw, hs⟩ | hd
  · obtain ⟨_, column, h⟩ := Word.mem_substitutions_iff.mp hs
    exact ⟨word, hw, h.length_eq⟩
  · exact hdraws probe hd

/-- Two words that are a letter apart. -/
def noSo : List Word := [⟨0, [110, 111], by decide, by decide⟩, ⟨1, [115, 111], by decide, by decide⟩]

theorem probes_exactly_nearMisses_noSo :
    let draws : List Candidate := [[108, 111], [120, 120], [110, 111], [120, 120]]
    (∀ draw ∈ draws, ∃ word ∈ noSo, draw.length = word.length) ∧
      (∀ probe ∈ probes noSo draws, ∃ word ∈ noSo, probe.length = word.length) ∧
      NearMiss noSo [108, 111] ∧ probes noSo draws = probes noSo [] ++ [[120, 120]] := by
  intro draws
  obtain ⟨_, hmem, hdraws⟩ := probes_exactly_nearMisses noSo
  have hlengths : ∀ draw ∈ draws, ∃ word ∈ noSo, draw.length = word.length := by decide
  have hnear : NearMiss noSo [108, 111] := by
    refine ⟨List.all_eq_true.mp rfl, by decide, ⟨0, [110, 111], by decide, by decide⟩, by decide, 0, rfl, by decide, ?_⟩
    intro k hk
    cases k with
    | zero => exact absurd rfl hk
    | succ k => rfl
  have hfar : [120, 120] ∉ probes noSo [] := by
    intro hp
    obtain ⟨word, hw, column, h⟩ := ((hmem _).mp hp).near
    have hword : word.letters[0]? ≠ some 120 ∧ word.letters[1]? ≠ some 120 :=
      (by decide : ∀ word ∈ noSo, word.letters[0]? ≠ some 120 ∧ word.letters[1]? ≠ some 120) word hw
    by_cases hc : column = 0
    · exact hword.2 (h.same 1 (by omega)).symm
    · exact hword.1 (h.same 0 (Ne.symm hc)).symm
  refine ⟨hlengths, (hdraws draws).2.2.2 hlengths, hnear, ?_⟩
  have hnew : ∀ word ∈ noSo, word.letters ≠ [120, 120] := by decide
  rw [(hdraws draws).1, List.filter_cons_of_neg (by simp [(hmem _).mpr hnear]),
    List.filter_cons_of_pos (by simpa using And.intro hnew hfar), List.filter_cons_of_neg (by simp [noSo]),
    List.filter_cons_of_pos (by simpa using And.intro hnew hfar)]
  rfl

end KeywordTree
