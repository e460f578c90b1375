import KeywordTree.Proofs.WordList.Acceptance

/-! What a change of the features does to a list that was read. The entries and their
indices stay, and with fewer features fewer of them are kept. -/
namespace KeywordTree

namespace WordList

def keeps (features lines : List String) (index : Nat) : Bool :=
  ((lines.filter holdsEntry)[index]?).any fun line => Enabled features line

theorem Entry.isEnabled_mono {fewer more : List String} (hsub : fewer ⊆ more) {entry : Entry}
    (h : entry.isEnabled fewer = true) : entry.isEnabled more = true := by
  rw [Entry.isEnabled_iff] at h ⊢
  exact h.imp_right fun ⟨feature, hf, he⟩ => ⟨feature, hsub hf, he⟩

theorem kept_of_subset {fewer more : List String} (hsub : fewer ⊆ more) (index : Nat) (entries : List Entry) :
    kept fewer index entries = (kept more index entries).filter fun entry => entry.1.isEnabled fewer := by
  rw [kept, kept, List.filter_filter]
  refine List.filter_congr fun entry _ => ?_
  by_cases h : entry.1.isEnabled fewer = true
  · simp [h, Entry.isEnabled_mono hsub h]
  · simp [h]

theorem map_ofText_filter {items : List (Entry × Nat)} {words : List Word} {keepItem : Entry × Nat → Bool}
    {keepWord : Word → Bool} (h : items.map (fun item => Word.ofText item.2 item.1.text) = words.map .ok)
    (hkeep : ∀ item ∈ items, ∀ word : Word, word.index = item.2 → keepWord word = keepItem item) :
    (items.filter keepItem).map (fun item => Word.ofText item.2 item.1.text) = (words.filter keepWord).map .ok := by
  induction items generalizing words with
  | nil =>
    obtain rfl := List.map_eq_nil_iff.mp h.symm
    rfl
  | cons item rest ih =>
    cases words with
    | nil => cases h
    | cons word others =>
      obtain ⟨hword, hothers⟩ := List.cons.inj h
      obtain ⟨hitem, hrest⟩ := List.forall_mem_cons.mp hkeep
      have hsame : keepWord word = keepItem item := hitem word (Word.text_of_ofText hword).1
      rw [List.filter_cons, List.filter_cons, hsame]
      cases keepItem item with
      | false => exact ih hothers hrest
      | true => exact congrArg₂ List.cons hword (ih hothers hrest)

section Reading

variable {lines features fewer more : List String} {entries : List Entry} {words : List Word}

theorem Reading.keeps_eq (h : Reading features 0 [] (entryLines 1 lines) entries words) (others : List String)
    {index : Nat} {entry : Entry} (hi : entries[index]? = some entry) :
    keeps others lines index = entry.isEnabled others := by
  have hline := h.getElem?_eq index
  rw [hi, Option.map_some, Option.map_eq_some_iff] at hline
  obtain ⟨line, hl, hs⟩ := hline
  rw [keeps, hl, Option.any_some, Bool.eq_iff_iff, decide_eq_true_eq]
  exact Spells.enabled_iff hs others

/-- What reads well with more features reads well with fewer. Entries that are no longer
kept were spelled well and were no repetition, so nothing new is found wrong. -/
theorem Reading.of_subset (hsub : fewer ⊆ more) (h : Reading more 0 [] (entryLines 1 lines) entries words) :
    Reading fewer 0 [] (entryLines 1 lines) entries (words.filter fun word => keeps fewer lines word.index) where
  spelled := h.spelled
  distinct := h.distinct
  fresh := h.fresh
  words_eq := by
    rw [kept_of_subset hsub]
    refine map_ofText_filter h.words_eq fun item hm word hw => ?_
    have hi : entries[item.2]? = some item.1 := List.mk_mem_zipIdx_iff_getElem?.mp (List.mem_filter.mp hm).1
    rw [hw]
    exact h.keeps_eq fewer hi

/-- Features matter only for which entries are kept. -/
theorem readEntries_congr (h : ∀ entry : Entry, entry.isEnabled fewer = entry.isEnabled more) (index : Nat)
    (earlier : List (String × Nat)) (lines : List EntryLine) :
    readEntries fewer index earlier lines = readEntries more index earlier lines := by
  induction lines generalizing index earlier with
  | nil => rfl
  | cons first rest ih =>
    obtain ⟨line, text⟩ := first
    simp only [readEntries, h, ih]

end Reading

/-- Features can only add words. If a list is read with some features, then with fewer of
them it is read too: the words are those from before, under the same indices, whose entries
have no feature or one that is left; if none is left, the list is reported as empty. Which
features there are is all that matters, not their order or how often they are given. -/
theorem parse_features_monotone (lines fewer more : List String) :
    (fewer ⊆ more → ∀ words, parse lines more = .ok words →
      let left := words.filter fun word => keeps fewer lines word.index
      parse lines fewer = if left = [] then .error .empty else .ok left) ∧
    ((∀ feature, feature ∈ fewer ↔ feature ∈ more) → parse lines fewer = parse lines more) := by
  constructor
  · intro hsub words h left
    obtain ⟨_, entries, hreading⟩ := parse_inv h
    have hread : readEntries fewer 0 [] (entryLines 1 lines) = .ok left := (hreading.of_subset hsub).readEntries_eq
    by_cases hnone : left = []
    · rw [if_pos hnone]
      exact parse_eq_empty_iff.mpr (hnone ▸ hread)
    · rw [if_neg hnone]
      exact parse_eq_ok_iff.mpr ⟨hnone, hread⟩
  · intro hsame
    have hon (entry : Entry) : entry.isEnabled fewer = entry.isEnabled more := by
      rw [Bool.eq_iff_iff]
      exact ⟨Entry.isEnabled_mono fun feature => (hsame feature).mp, Entry.isEnabled_mono fun feature => (hsame feature).mpr⟩
    rw [parse, parse, readEntries_congr hon]

/-- An entry without a feature and two with different ones. -/
def taggedLines : List String := ["ref", "dyn [late]", "", "mod [new]"]

theorem parse_features_monotone_taggedLines :
    ["new"] ⊆ ["late", "new"] ∧ ∃ words, parse taggedLines ["late", "new"] = .ok words ∧
      parse taggedLines ["new"] = .ok (words.filter fun word => keeps ["new"] taggedLines word.index) ∧
      (words.filter fun word => keeps ["new"] taggedLines word.index).map (fun word => (word.index, word.text)) =
        [(0, "ref"), (2, "mod")] ∧
      parse taggedLines ["new", "late", "new"] = .ok words := by
  have hsub : ["new"] ⊆ ["late", "new"] := by simp
  have h : parse taggedLines ["late", "new"] = .ok [⟨0, [114, 101, 102], by decide, by decide⟩,
      ⟨1, [100, 121, 110], by decide, by decide⟩, ⟨2, [109, 111, 100], by decide, by decide⟩] := by decide +kernel
  have hless := (parse_features_monotone taggedLines ["new"] ["late", "new"]).1 hsub _ h
  have hmore := (parse_features_monotone taggedLines ["new", "late", "new"] ["late", "new"]).2 (by simp)
  refine ⟨hsub, _, h, ?_, by decide +kernel, hmore.trans h⟩
  rw [hless]
  exact if_neg (by decide +kernel)

end WordList

end KeywordTree
