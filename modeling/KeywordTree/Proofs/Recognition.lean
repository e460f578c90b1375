import KeywordTree.Proofs.BuildOutcome
import KeywordTree.Proofs.Coverage
import KeywordTree.Tree.Equality
import Mathlib.Data.Finset.Card

/-! Which candidates a built tree accepts, at which leaf and how; and that with guesses
confirmed it is a linear search of its corpus. -/
namespace KeywordTree

namespace Route

def tested (route : Route) : Finset Nat := route.columns.toFinset

theorem columns_after_length (route : Route) (n : Nat) : (route.after (.arm .length n)).columns = route.columns := rfl

theorem outcome_eq_guessed_iff {route : Route} {word : Word} :
    route.outcome = .guessed word ↔ route.word = word ∧ ∃ n, route.leaf = .guess n := by
  rw [outcome]
  cases route.leaf <;> simp

theorem outcome_eq_accepted_iff {route : Route} {word : Word} :
    route.outcome = .accepted word ↔ route.word = word ∧ ∀ n, route.leaf ≠ .guess n := by
  rw [outcome]
  cases route.leaf <;> simp

theorem outcome_cases (route : Route) : route.outcome = .guessed route.word ∨ route.outcome = .accepted route.word := by
  rw [outcome]
  cases route.leaf <;> simp

end Route

section Built

variable {config : Config} {corpus : List Word} {tree : Tree} {candidate : Candidate} {word : Word} {route : Route}

theorem distinct_of_build (h : (build config corpus).result = .ok tree) : Distinct corpus := by
  obtain ⟨hne, _⟩ := build_inv h
  rcases build_settled config hne with ⟨_, hd⟩ | ⟨⟨length, texts, he⟩, _⟩
  · exact hd
  · rw [h] at he
    cases he

theorem exists_unique_route (h : (build config corpus).result = .ok tree) (hw : word ∈ corpus) :
    ∃ route, tree.root.routes.filter (fun r => r.word = word) = [route] := by
  have hnodup : corpus.Nodup := List.Nodup.of_map Word.letters (distinct_of_build h)
  have hcount : (tree.root.routes.map Route.word).count word = 1 := by
    rw [(build_words_perm h).count_eq]
    exact List.count_eq_one_of_mem hnodup hw
  apply List.length_eq_one_iff.mp
  rw [← List.countP_eq_length_filter, ← hcount, List.count, List.countP_map]
  rfl

theorem route_of_filter (hu : tree.root.routes.filter (fun r => r.word = word) = [route]) :
    route ∈ tree.root.routes ∧ route.word = word := by
  have hm : route ∈ tree.root.routes.filter (fun r => r.word = word) := hu ▸ List.mem_cons_self
  simpa using hm

private theorem eq_of_filter (hu : tree.root.routes.filter (fun r => r.word = word) = [route]) {other : Route}
    (hm : other ∈ tree.root.routes) (hw : other.word = word) : other = route := by
  have hin : other ∈ tree.root.routes.filter (fun r => r.word = word) := List.mem_filter.mpr ⟨hm, by simpa using hw⟩
  rw [hu] at hin
  exact List.mem_singleton.mp hin

theorem evaluate_eq_guessed_iff (h : (build config corpus).result = .ok tree)
    (hu : tree.root.routes.filter (fun r => r.word = word) = [route]) :
    tree.evaluate candidate = .guessed word ↔ (∃ n, route.leaf = .guess n) ∧
      candidate.length = word.length ∧ ∀ k ∈ route.tested, candidate[k]? = word.letters[k]? := by
  obtain ⟨hm, rfl⟩ := route_of_filter hu
  obtain ⟨below, hb, hs⟩ := build_route h hm
  have haccepts {n : Nat} (hn : route.leaf = .guess n) : route.Accepts candidate ↔
      candidate.length = route.word.length ∧ ∀ k ∈ route.tested, candidate[k]? = route.word.letters[k]? := by
    simp only [Route.tested, List.mem_toFinset]
    subst hb
    exact hs.accepts_guess_iff hn
  rw [Tree.evaluate, evaluate_eq_iff (build_orderly h) candidate (by simp)]
  constructor
  · rintro ⟨other, hother, ha, ho⟩
    obtain ⟨hword, n, hn⟩ := Route.outcome_eq_guessed_iff.mp ho
    obtain rfl := eq_of_filter hu hother hword
    exact ⟨⟨n, hn⟩, (haccepts hn).mp ha⟩
  · rintro ⟨⟨n, hn⟩, hagree⟩
    exact ⟨route, hm, (haccepts hn).mpr hagree, Route.outcome_eq_guessed_iff.mpr ⟨rfl, n, hn⟩⟩

theorem evaluate_eq_accepted_iff (h : (build config corpus).result = .ok tree)
    (hu : tree.root.routes.filter (fun r => r.word = word) = [route]) :
    tree.evaluate candidate = .accepted word ↔ (∀ n, route.leaf ≠ .guess n) ∧ candidate = word.letters := by
  obtain ⟨hm, rfl⟩ := route_of_filter hu
  obtain ⟨below, hb, hs⟩ := build_route h hm
  have haccepts (hg : ∀ n, route.leaf ≠ .guess n) : route.Accepts candidate ↔ candidate = route.word.letters := by
    subst hb
    exact hs.accepts_iff_eq hg
  rw [Tree.evaluate, evaluate_eq_iff (build_orderly h) candidate (by simp)]
  constructor
  · rintro ⟨other, hother, ha, ho⟩
    obtain ⟨hword, hg⟩ := Route.outcome_eq_accepted_iff.mp ho
    obtain rfl := eq_of_filter hu hother hword
    exact ⟨hg, (haccepts hg).mp ha⟩
  · rintro ⟨hg, he⟩
    exact ⟨route, hm, (haccepts hg).mpr he, Route.outcome_eq_accepted_iff.mpr ⟨rfl, hg⟩⟩

/-- A guess leaves open all columns that the way to it has not tested. -/
theorem unverified_add_card (h : (build config corpus).result = .ok tree) (hm : route ∈ tree.root.routes)
    {n : Nat} (hn : route.leaf = .guess n) :
    n + route.tested.card = route.word.length ∧ config.tailThreshold < n := by
  obtain ⟨below, rfl, hs⟩ := build_route h hm
  obtain ⟨untested, hperm, hcov⟩ := hs.covers
  rw [Route.leaf_after] at hn
  rw [hn] at hcov
  obtain ⟨rfl, hlt⟩ := hcov
  have hnodup : below.columns.Nodup := (hperm.nodup_iff.mpr List.nodup_range).of_append_left
  have hlen := hperm.length_eq
  rw [List.length_append, List.length_range] at hlen
  refine ⟨?_, hlt⟩
  rw [Route.tested, Route.columns_after_length, List.toFinset_card_of_nodup hnodup, Route.word_after]
  omega

theorem evaluate_cases (h : (build config corpus).result = .ok tree) (candidate : Candidate) :
    tree.evaluate candidate = .rejected ∨
      ∃ word ∈ corpus, tree.evaluate candidate = .guessed word ∨ tree.evaluate candidate = .accepted word := by
  by_cases hr : tree.evaluate candidate = .rejected
  · exact .inl hr
  · obtain ⟨route, hm, ha⟩ := exists_accepts (build_orderly h) hr
    obtain ⟨below, rfl, hs⟩ := build_route h hm
    refine .inr ⟨below.word, hs.mem, ?_⟩
    rw [Tree.evaluate, evaluate_of_accepts (build_orderly h) hm ha]
    exact Route.outcome_cases _

/-- The outcome for every candidate, told by the leaves. Each word of the corpus is at
one leaf. A guess leaf accepts what agrees with its word on the columns tested, any other
leaf accepts its word only, and all else is rejected. So what is accepted without being a
word was guessed, and differs from the word only in columns that were not tested. -/
theorem evaluate_classifies (h : (build config corpus).result = .ok tree) (candidate : Candidate) :
    (∀ word ∈ corpus, ∃ route, tree.root.routes.filter (fun r => r.word = word) = [route] ∧
      (tree.evaluate candidate = .guessed word ↔ (∃ n, route.leaf = .guess n) ∧
        candidate.length = word.length ∧ ∀ k ∈ route.tested, candidate[k]? = word.letters[k]?) ∧
      (∀ n, route.leaf = .guess n → n + route.tested.card = word.length ∧ config.tailThreshold < n) ∧
      (tree.evaluate candidate = .accepted word ↔
        (route.leaf = .accept ∨ ∃ checks, route.leaf = .verify checks) ∧ candidate = word.letters)) ∧
    ((∀ word ∈ corpus, tree.evaluate candidate ≠ .guessed word ∧ tree.evaluate candidate ≠ .accepted word) →
      tree.evaluate candidate = .rejected) ∧
    ∀ word, tree.evaluate candidate = .guessed word ∨ tree.evaluate candidate = .accepted word →
      word ∈ corpus ∧ ((∀ other ∈ corpus, other.letters ≠ candidate) →
        ∃ route, tree.root.routes.filter (fun r => r.word = word) = [route] ∧ (∃ n, route.leaf = .guess n) ∧
          ∀ k, candidate[k]? ≠ word.letters[k]? → k ∉ route.tested) := by
  refine ⟨?_, ?_, ?_⟩
  · intro word hw
    obtain ⟨route, hu⟩ := exists_unique_route h hw
    obtain ⟨hm, hword⟩ := route_of_filter hu
    have hleaf : (∀ n, route.leaf ≠ .guess n) ↔ route.leaf = .accept ∨ ∃ checks, route.leaf = .verify checks := by
      cases route.leaf <;> simp
    refine ⟨route, hu, evaluate_eq_guessed_iff h hu, ?_, ?_⟩
    · intro n hn
      rw [← hword]
      exact unverified_add_card h hm hn
    · rw [evaluate_eq_accepted_iff h hu, hleaf]
  · intro hno
    rcases evaluate_cases h candidate with hr | ⟨word, hw, hg | ha⟩
    · exact hr
    · exact absurd hg (hno word hw).1
    · exact absurd ha (hno word hw).2
  · intro word he
    have hw : word ∈ corpus := by
      rcases evaluate_cases h candidate with hr | ⟨other, hother, ho⟩
      · simp [hr] at he
      · rcases he with he | he <;> rcases ho with ho | ho <;> simp_all
    refine ⟨hw, fun hne => ?_⟩
    obtain ⟨route, hu⟩ := exists_unique_route h hw
    rcases he with hg | ha
    · obtain ⟨hleaf, _, hagree⟩ := (evaluate_eq_guessed_iff h hu).mp hg
      exact ⟨route, hu, hleaf, fun k hk hin => hk (hagree k hin)⟩
    · exact absurd ((evaluate_eq_accepted_iff h hu).mp ha).2.symm (hne word hw)

end Built

/-- The words `if` and `on`. -/
def ifOn : List Word :=
  [⟨0, [105, 102], by decide, by decide⟩, ⟨1, [111, 110], by decide, by decide⟩]

/-- The tree of these words when no tail is compared: `ox` is taken for `on`. -/
def ifOnTree : Tree where
  words := ifOn
  root := .dispatch .length .ifChain [(2, .dispatch (.column 0) .ifChain
    (ifOn.map fun word => (codeIn 0 word, .guess word 1)) .reject)] .reject

theorem evaluate_classifies_ox : (build ⟨3, 0, 1⟩ ifOn).result = .ok ifOnTree ∧
    ∃ word route, ifOnTree.evaluate [111, 120] = .guessed word ∧ word.index = 1 ∧
      ifOnTree.root.routes.filter (fun r => r.word = word) = [route] ∧ (∃ n, route.leaf = .guess n) ∧
      ∀ k, ([111, 120] : Candidate)[k]? ≠ word.letters[k]? → k ∉ route.tested := by
  have h : (build ⟨3, 0, 1⟩ ifOn).result = .ok ifOnTree := by
    rw [build, canonical_eq_insertionSort]
    decide +kernel
  have he : ifOnTree.evaluate [111, 120] = .guessed ⟨1, [111, 110], by decide, by decide⟩ := by decide +kernel
  have hnot : ∀ other ∈ ifOn, other.letters ≠ [111, 120] := by decide
  obtain ⟨_, hclass⟩ := (evaluate_classifies h [111, 120]).2.2 _ (.inl he)
  obtain ⟨route, hroute⟩ := hclass hnot
  exact ⟨h, _, route, he, rfl, hroute⟩

section Built

variable {config : Config} {corpus : List Word} {tree : Tree} {word : Word}

theorem recognize_of_mem (h : (build config corpus).result = .ok tree) (hw : word ∈ corpus) :
    tree.recognize word.text = some word.index := by
  obtain ⟨route, hu⟩ := exists_unique_route h hw
  rw [Tree.recognize, Word.encode_text]
  by_cases hg : ∃ n, route.leaf = .guess n
  · rw [(evaluate_eq_guessed_iff h hu).mpr ⟨hg, rfl, fun _ _ => rfl⟩]
    exact if_pos rfl
  · rw [(evaluate_eq_accepted_iff h hu).mpr ⟨fun n hn => hg ⟨n, hn⟩, rfl⟩]
    rfl

theorem recognize_of_not_mem (h : (build config corpus).result = .ok tree) {text : String}
    (hn : ∀ word ∈ corpus, word.text ≠ text) : tree.recognize text = none := by
  have hne (w : Word) (hw : w ∈ corpus) : w.letters ≠ Text.encode text := fun he =>
    hn w hw ((w.text_eq_iff text).mpr he)
  rw [Tree.recognize]
  rcases evaluate_cases h (Text.encode text) with hr | ⟨w, hw, hg | ha⟩
  · rw [hr]
    rfl
  · rw [hg]
    exact if_neg (hne w hw)
  · obtain ⟨route, hu⟩ := exists_unique_route h hw
    exact absurd ((evaluate_eq_accepted_iff h hu).mp ha).2.symm (hne w hw)

theorem recognize_eq_some_iff (h : (build config corpus).result = .ok tree) {text : String} {i : Nat} :
    tree.recognize text = some i ↔ ∃ word ∈ corpus, word.index = i ∧ word.text = text := by
  constructor
  · intro hi
    by_contra hno
    by_cases hw : ∃ word ∈ corpus, word.text = text
    · obtain ⟨word, hw, rfl⟩ := hw
      rw [recognize_of_mem h hw] at hi
      exact hno ⟨word, hw, Option.some.inj hi, rfl⟩
    · rw [recognize_of_not_mem h fun word hm he => hw ⟨word, hm, he⟩] at hi
      cases hi
  · rintro ⟨word, hw, rfl, rfl⟩
    exact recognize_of_mem h hw

end Built

/-- Recognition is exact for every corpus without repeated texts and every threshold: it
finds the index of the word with the candidate's text as a linear search does. -/
theorem recognize_eq_find (config : Config) {corpus : List Word} (hne : corpus ≠ [])
    (hd : (corpus.map Word.text).Nodup) :
    ∃ tree, (build config corpus).result = .ok tree ∧ ∀ text : String,
      tree.recognize text = (corpus.find? fun word => word.text == text).map Word.index ∧
      (∀ word ∈ corpus, word.text = text → tree.recognize text = some word.index) ∧
      ((∀ word ∈ corpus, word.text ≠ text) → tree.recognize text = none) := by
  obtain ⟨tree, h⟩ := exists_build config hne hd
  refine ⟨tree, h, fun text => ⟨?_, ?_, recognize_of_not_mem h⟩⟩
  · cases hf : corpus.find? fun word => word.text == text with
    | none =>
      refine recognize_of_not_mem h fun word hw he => ?_
      have := List.find?_eq_none.mp hf word hw
      simp [he] at this
    | some word =>
      obtain rfl : word.text = text := by simpa using List.find?_some hf
      exact recognize_of_mem h (List.mem_of_find?_eq_some hf)
  · rintro word hw rfl
    exact recognize_of_mem h hw

/-- The words `yield`, `in`, `if` and `of`, two of them with one index. -/
def mixedWords : List Word :=
  [⟨4, [121, 105, 101, 108, 100], by decide, by decide⟩, ⟨0, [105, 110], by decide, by decide⟩,
    ⟨4, [105, 102], by decide, by decide⟩, ⟨2, [111, 102], by decide, by decide⟩]

theorem recognize_eq_find_mixedWords : mixedWords ≠ [] ∧ (mixedWords.map Word.text).Nodup ∧
    ∃ tree, (build ⟨3, 0, 1⟩ mixedWords).result = .ok tree ∧
      tree.recognize "yield" = some 4 ∧ tree.recognize "yiexd" = none := by
  have hne : mixedWords ≠ [] := by decide
  have hd : (mixedWords.map Word.text).Nodup := by decide +kernel
  obtain ⟨tree, h, hfind⟩ := recognize_eq_find ⟨3, 0, 1⟩ hne hd
  exact ⟨hne, hd, tree, h, (hfind "yield").1.trans (by decide +kernel), (hfind "yiexd").1.trans (by decide +kernel)⟩

end KeywordTree
