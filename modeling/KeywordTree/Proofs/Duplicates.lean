import KeywordTree.Proofs.BuildOutcome

/-! What is reported of a corpus that has no tree: all copies of one text, which is the
shortest of those that the corpus repeats. -/
namespace KeywordTree

theorem count_text (words : List Word) (word : Word) :
    (words.map Word.text).count word.text = copies words word.letters := by
  rw [copies, List.count, List.count, List.countP_map, List.countP_map]
  apply List.countP_congr
  intro w _
  simp [Word.text_eq_text_iff]

theorem bind_pure_eq_error {α β : Type} {result : Except BuildError α} {next : α → β} {error : BuildError}
    (h : (result >>= fun value => pure (next value)) = .error error) : result = .error error := by
  cases result with
  | error e => exact congrArg Except.error (Except.error.inj h)
  | ok value => cases h

/-- Arms fail with the error of the first group that fails; those before it have a tree. -/
theorem growArms_error_inv {grow : Nat → List Word → Traced Node} {key : Word → Nat} {words : List Word}
    {keys : List Nat} (hk : keys.Pairwise (· < ·)) {error : BuildError}
    (h : (growArms grow (keys.map fun k => (k, groupOf key words k))).result = .error error) :
    ∃ k ∈ keys, (grow k (groupOf key words k)).result = .error error ∧
      ∀ j ∈ keys, j < k → ∃ node, (grow j (groupOf key words j)).result = .ok node := by
  induction keys with
  | nil => cases h
  | cons first rest ih =>
    obtain ⟨hfirst, hrest⟩ := List.pairwise_cons.mp hk
    simp only [List.map_cons, growArms, Traced.result_bind] at h
    cases hg : (grow first (groupOf key words first)).result with
    | error e =>
      rw [hg] at h
      obtain rfl : e = error := Except.error.inj h
      refine ⟨first, List.mem_cons_self, hg, fun j hj hlt => ?_⟩
      rcases List.mem_cons.mp hj with rfl | hj
      · omega
      · have := hfirst j hj
        omega
    | ok node =>
      rw [hg, Traced.ok_bind] at h
      obtain ⟨k, hk, he, hbefore⟩ := ih hrest (bind_pure_eq_error h)
      refine ⟨k, List.mem_cons_of_mem first hk, he, fun j hj hlt => ?_⟩
      rcases List.mem_cons.mp hj with rfl | hj
      · exact ⟨node, hg⟩
      · exact hbefore j hj hlt

/-- The texts are all copies that the words have of one text, and there are several. -/
def Repeated (words : List Word) (texts : List String) : Prop :=
  ∃ word ∈ words, 2 ≤ copies words word.letters ∧ texts = List.replicate (copies words word.letters) word.text

theorem Repeated.of_group {key : Word → Nat} (hkey : ∀ a b : Word, a.letters = b.letters → key a = key b)
    {words : List Word} {k : Nat} {texts : List String} (h : Repeated (groupOf key words k) texts) :
    Repeated words texts := by
  obtain ⟨word, hw, htwo, htexts⟩ := h
  obtain ⟨hmem, rfl⟩ := mem_groupOf.mp hw
  rw [copies_groupOf hkey] at htwo htexts
  exact ⟨word, hmem, htwo, htexts⟩

theorem dispatchColumns_error {config : Config} {length : Nat} {words : List Word} {columns : Columns}
    (hf : Fits length words columns) {n : Nat} {texts : List String}
    (h : (dispatchColumns config words columns).result = .error (.columnsExhausted n texts)) :
    n = length ∧ Repeated words texts := by
  induction hf using Fits.induct config with
  | @alone word columns hf =>
    rcases dispatchColumns_settled config hf with ⟨⟨node, hok⟩, _⟩ | ⟨_, hd⟩
    · rw [hok] at h
      cases h
    · exact absurd (List.nodup_singleton _) hd
  | @exhausted words columns hf hw hp =>
    rw [hf.exhausted_result config hw hp] at h
    obtain ⟨rfl, rfl⟩ : length = n ∧ words.map Word.text = texts := by simpa using h
    obtain ⟨word, hmem⟩ := List.exists_mem_of_ne_nil words hf.nonempty
    -- With no column left all words have one text, so its copies are all of them.
    have hall : ∀ other ∈ words, other.letters = word.letters := fun other ho => hf.letters_eq hp ho hmem
    have hcopies : copies words word.letters = words.length := by
      rw [copies, ← List.length_map Word.letters, List.count_eq_length, List.forall_mem_map]
      exact fun other ho => (hall other ho).symm
    refine ⟨rfl, word, hmem, by omega, ?_⟩
    rw [hcopies, List.eq_replicate_iff, List.length_map, List.forall_mem_map]
    exact ⟨rfl, fun other ho => (Word.text_eq_text_iff other word).mpr (hall other ho)⟩
  | @dispatch words columns choice remaining hf hw hc hr ih =>
    rw [hf.dispatch_result hw hc hr] at h
    obtain ⟨k, hk, he, _⟩ := growArms_error_inv (pairwise_ascending _) (bind_pure_eq_error h)
    obtain ⟨_, hgroup⟩ := ih k hk
    obtain ⟨hn, hrepeated⟩ := hgroup he
    exact ⟨hn, hrepeated.of_group fun _ _ => codeIn_congr choice.column⟩

section Built

variable {config : Config} {corpus : List Word} {length : Nat} {texts : List String}

theorem build_error_inv (h : (build config corpus).result = .error (.columnsExhausted length texts)) :
    Repeated (groupOf Word.length (canonical corpus) length) texts ∧
      ∀ shorter ∈ corpus.map Word.length, shorter < length →
        Distinct (groupOf Word.length (canonical corpus) shorter) := by
  have hne : corpus ≠ [] := by
    rintro rfl
    cases h
  rw [build_result config hne] at h
  obtain ⟨k, hk, he, hbefore⟩ := growArms_error_inv (pairwise_ascending _) (bind_pure_eq_error h)
  obtain ⟨rfl, hrepeated⟩ := dispatchColumns_error (Fits.start (canonical corpus) hk) he
  refine ⟨hrepeated, fun shorter hs hlt => ?_⟩
  have hmem : shorter ∈ ascending ((canonical corpus).map Word.length) :=
    mem_ascending.mpr (mem_map_canonical.mpr hs)
  obtain ⟨node, hn⟩ := hbefore shorter hmem hlt
  have hsettled := dispatchColumns_settled config (Fits.start (canonical corpus) hmem)
  rcases hsettled with ⟨_, hd⟩ | ⟨⟨_, _, herror⟩, _⟩
  · exact hd
  · rw [hn] at herror
    cases herror

/-- The report of exhausted columns is accurate and complete. It lists one text, as often as the
corpus has it, which is at least twice; the length is that of the text, and no text that is
shorter occurs twice. -/
theorem exhausted_reports_shortest (h : (build config corpus).result = .error (.columnsExhausted length texts)) :
    ∃ text, 2 ≤ (corpus.map Word.text).count text ∧
      texts = List.replicate ((corpus.map Word.text).count text) text ∧ length = text.length ∧
      ∀ other, 2 ≤ (corpus.map Word.text).count other → length ≤ other.length := by
  obtain ⟨hgroup, hshorter⟩ := build_error_inv h
  have hcopies (word : Word) : copies (groupOf Word.length (canonical corpus) word.length) word.letters =
      copies corpus word.letters := by
    rw [copies_groupOf fun _ _ => length_congr, copies_eq_of_perm (canonical_perm corpus)]
  obtain ⟨word, hw, htwo, htexts⟩ := hgroup
  obtain ⟨hmem, rfl⟩ := mem_groupOf.mp hw
  rw [hcopies, ← count_text] at htwo htexts
  refine ⟨word.text, htwo, htexts, word.length_text.symm, fun other ho => ?_⟩
  by_contra hlt
  obtain ⟨v, hv, rfl⟩ := List.mem_map.mp (List.count_pos_iff.mp (Nat.lt_of_lt_of_le Nat.zero_lt_two ho))
  rw [v.length_text, Nat.not_le] at hlt
  rw [count_text, ← hcopies] at ho
  have hone := distinct_iff_copies.mp (hshorter v.length (List.mem_map_of_mem hv) hlt) v.letters
  omega

end Built

/-- Three times `go`, twice `pug`, and `be` alone. -/
def goPug : List Word :=
  [⟨5, [103, 111], by decide, by decide⟩, ⟨0, [112, 117, 103], by decide, by decide⟩,
    ⟨2, [103, 111], by decide, by decide⟩, ⟨3, [98, 101], by decide, by decide⟩,
    ⟨1, [112, 117, 103], by decide, by decide⟩, ⟨7, [103, 111], by decide, by decide⟩]

theorem exhausted_reports_shortest_goPug :
    (build {} goPug).result = .error (.columnsExhausted 2 ["go", "go", "go"]) ∧
    (∃ text, ["go", "go", "go"] = List.replicate ((goPug.map Word.text).count text) text) ∧
    2 ≤ (goPug.map Word.text).count "pug" ∧
    ∀ other, 2 ≤ (goPug.map Word.text).count other → 2 ≤ other.length := by
  have herror : (build {} goPug).result.map (fun _ => ()) = .error (.columnsExhausted 2 ["go", "go", "go"]) := by
    rw [build, canonical_eq_insertionSort]
    decide +kernel
  have h : (build {} goPug).result = .error (.columnsExhausted 2 ["go", "go", "go"]) := by
    cases hr : (build {} goPug).result with
    | error error => exact congrArg Except.error (Except.error.inj (hr ▸ herror))
    | ok tree =>
      rw [hr] at herror
      cases herror
  obtain ⟨text, _, htexts, _, hshortest⟩ := exhausted_reports_shortest h
  exact ⟨h, ⟨text, htexts⟩, by decide +kernel, hshortest⟩

end KeywordTree
